import PathGlob.Pattern

/-!
# Counting nodes

How many nodes of a kind a sequence has, at every depth outside negated groups. What stands inside a
negated group is left out because a walk of the sequence never gets there: a search of its own looks
into it.
-/

namespace PathGlob.Node

mutual

/-- How many nodes of a kind there are among a node and those inside it. -/
def count (kind : Node → Bool) : Node → Nat
  | .oneOf alts => (kind (.oneOf alts)).toNat + alternativesCount kind alts
  | node => (kind node).toNat

/-- How many nodes of a kind a sequence has. -/
def sequenceCount (kind : Node → Bool) : List Node → Nat
  | [] => 0
  | node :: rest => count kind node + sequenceCount kind rest

/-- How many nodes of a kind the alternatives of a group have. -/
def alternativesCount (kind : Node → Bool) : List (List Node) → Nat
  | [] => 0
  | alt :: alts => sequenceCount kind alt + alternativesCount kind alts

end

/-- Whether the node may leave a choice open. -/
def leavesChoice : Node → Bool
  | .anyText | .globstar | .oneOf _ => true
  | .slash | .anyChar | .literal _ | .range _ _ | .noneOf _ => false

/-- Whether the node is a plain group. -/
def isPlainGroup : Node → Bool
  | .oneOf _ => true
  | .slash | .globstar | .anyChar | .anyText | .literal _ | .range _ _ | .noneOf _ => false

variable {kind : Node → Bool}

@[simp] theorem sequenceCount_nil : sequenceCount kind [] = 0 := by
  rw [sequenceCount]

@[simp] theorem sequenceCount_cons (node : Node) (rest : List Node) :
    sequenceCount kind (node :: rest) = count kind node + sequenceCount kind rest := by
  rw [sequenceCount]

theorem sequenceCount_append (left right : List Node) :
    sequenceCount kind (left ++ right) = sequenceCount kind left + sequenceCount kind right := by
  induction left with
  | nil => rw [List.nil_append, sequenceCount_nil, Nat.zero_add]
  | cons node left ih =>
    rw [List.cons_append, sequenceCount_cons, ih, sequenceCount_cons, Nat.add_assoc]

theorem alternativesCount_eq (alts : List (List Node)) :
    alternativesCount kind alts = sequenceCount kind alts.flatten := by
  induction alts with
  | nil => rw [alternativesCount, List.flatten_nil, sequenceCount_nil]
  | cons alt alts ih => rw [alternativesCount, ih, List.flatten_cons, sequenceCount_append]

theorem sequenceCount_le_of_sublist {part nodes : List Node} (h : part.Sublist nodes) :
    sequenceCount kind part ≤ sequenceCount kind nodes := by
  induction h with
  | slnil => exact Nat.le_refl _
  | cons node _ ih =>
    rw [sequenceCount_cons]
    exact Nat.le_trans ih (Nat.le_add_left _ _)
  | cons_cons node _ ih =>
    rw [sequenceCount_cons, sequenceCount_cons]
    exact Nat.add_le_add_left ih _

end PathGlob.Node
