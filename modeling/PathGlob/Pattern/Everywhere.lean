import PathGlob.Pattern
import PathGlob.Rune

/-!
# Nodes at every depth

Many facts about matching hold for patterns without a certain kind of node, or with groups of a
certain kind only, wherever the node or the group stands. `Everywhere` carries a condition on single
nodes to all nodes of a sequence, those inside the alternatives of its groups included.
-/

namespace PathGlob.Node

/-! ## Conditions at every depth -/

mutual

/-- A condition holds of a node and of every node inside it. -/
def Throughout (P : Node → Prop) : Node → Prop
  | .oneOf alts => P (.oneOf alts) ∧ EverywhereIn P alts
  | .noneOf alts => P (.noneOf alts) ∧ EverywhereIn P alts
  | node => P node

/-- A condition holds of every node of a sequence, at every depth. -/
def Everywhere (P : Node → Prop) : List Node → Prop
  | [] => True
  | node :: rest => Throughout P node ∧ Everywhere P rest

/-- A condition holds of every node of every alternative, at every depth. -/
def EverywhereIn (P : Node → Prop) : List (List Node) → Prop
  | [] => True
  | alt :: alts => Everywhere P alt ∧ EverywhereIn P alts

end

theorem everywhereIn_iff {P : Node → Prop} {alts : List (List Node)} :
    EverywhereIn P alts ↔ ∀ alt ∈ alts, Everywhere P alt := by
  induction alts with
  | nil => simp [EverywhereIn]
  | cons alt alts ih => simp [EverywhereIn, ih]

theorem everywhere_iff {P : Node → Prop} {nodes : List Node} :
    Everywhere P nodes ↔ ∀ node ∈ nodes, Throughout P node := by
  induction nodes with
  | nil => simp [Everywhere]
  | cons node nodes ih => simp [Everywhere, ih]

theorem Throughout.self {P : Node → Prop} {node : Node} (h : Throughout P node) : P node := by
  cases node <;> first | exact h | exact h.1

mutual

theorem Throughout.imp {P Q : Node → Prop} (hPQ : ∀ node, P node → Q node) :
    ∀ {node : Node}, Throughout P node → Throughout Q node
  | .oneOf _, h | .noneOf _, h => ⟨hPQ _ h.1, EverywhereIn.imp hPQ h.2⟩
  | .slash, h | .globstar, h | .anyChar, h | .anyText, h | .literal _, h | .range _ _, h => hPQ _ h

theorem Everywhere.imp {P Q : Node → Prop} (hPQ : ∀ node, P node → Q node) :
    ∀ {nodes : List Node}, Everywhere P nodes → Everywhere Q nodes
  | [], _ => trivial
  | _ :: _, h => ⟨Throughout.imp hPQ h.1, Everywhere.imp hPQ h.2⟩

theorem EverywhereIn.imp {P Q : Node → Prop} (hPQ : ∀ node, P node → Q node) :
    ∀ {alts : List (List Node)}, EverywhereIn P alts → EverywhereIn Q alts
  | [], _ => trivial
  | _ :: _, h => ⟨Everywhere.imp hPQ h.1, EverywhereIn.imp hPQ h.2⟩

end

/-! ## Conditions on single nodes -/

/-- The node is not a double star. -/
def NotGlobstar (node : Node) : Prop := node ≠ .globstar

/-- The node is not a negated group. -/
def NotNegated (node : Node) : Prop := ∀ alts, node ≠ .noneOf alts

/-- The node, if it is a plain group, has an alternative. -/
def HasAlternative : Node → Prop
  | .oneOf alts => alts ≠ []
  | _ => True

/-- The alternatives of the node, if it is a group, are one rune or one range each. -/
def ClassOnly : Node → Prop
  | .oneOf alts => ∀ alt ∈ alts, (∃ r, alt = [.literal [r]]) ∨ ∃ lo hi, alt = [.range lo hi]
  | .noneOf alts => ∀ alt ∈ alts, (∃ r, alt = [.literal [r]]) ∨ ∃ lo hi, alt = [.range lo hi]
  | _ => True

/-- The node, if it is a negated group, is a class. -/
def NegatesClass (node : Node) : Prop := ∀ alts, node = .noneOf alts → ClassOnly node

/-- The node does not tell the separators apart: its runes are none, and a range holds both or
neither. -/
def SeparatorBlind : Node → Prop
  | .literal runes => ∀ r ∈ runes, isSeparator r = false
  | .range lo hi => (lo ≤ '/' ∧ '/' ≤ hi) ↔ (lo ≤ '\\' ∧ '\\' ≤ hi)
  | _ => True

/-- The node goes over no separator. -/
def WithinSegment : Node → Prop
  | .slash | .globstar | .noneOf _ => False
  | .literal runes => ∀ r ∈ runes, isSeparator r = false
  | .range lo hi => ∀ r, isSeparator r = true → ¬(lo ≤ r ∧ r ≤ hi)
  | .anyChar | .anyText | .oneOf _ => True

end PathGlob.Node
