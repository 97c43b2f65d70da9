import PathGlob.Pattern.Text
import PathGlob.Syntax.Error

/-!
# Canonical sequences

The sequences that reading can produce are fewer than those that can be built. Literals hold at
least one rune and run as far as they can, so no two of them meet. Stars are paired from the left,
so a single star is never followed by a star of either kind. Ranges occur in classes only, only
classes are negated, and a brace group holds something and nests no deeper than is allowed.

Nothing here mentions reading: a sequence is canonical by its own shape. A group whose alternatives
are all class members counts as a class, whichever brackets it was written in, because nothing in
the group tells them apart.
-/

namespace PathGlob.Node

/-- An alternative that is a member of a class: one rune, or one range that does not run
backwards. -/
def IsMember : List Node → Prop
  | [.literal [_]] => True
  | [.range lo hi] => lo ≤ hi
  | _ => False

/-- A class has members and nothing else. -/
def IsClass (alts : List (List Node)) : Prop := alts ≠ [] ∧ ∀ alt ∈ alts, IsMember alt

/-- Two nodes that may stand side by side: reading would have joined two literals, and it would have
paired two stars. -/
def MayMeet : Node → Node → Prop
  | .literal _, .literal _ => False
  | .anyText, .anyText => False
  | .anyText, .globstar => False
  | _, _ => True

mutual

/-- The shape of a node of a canonical sequence. -/
def WellShaped : Node → Prop
  | .literal runes => runes ≠ []
  | .range _ _ => False
  | .oneOf alts => IsClass alts ∨ alts ≠ [] ∧ alts ≠ [[]] ∧ AlternativesWellShaped alts
  | .noneOf alts => IsClass alts
  | _ => True

/-- The shape of a canonical sequence, the depth of its groups aside. -/
def SequenceWellShaped : List Node → Prop
  | [] => True
  | node :: rest =>
    WellShaped node ∧ (∀ next ∈ rest.head?, MayMeet node next) ∧ SequenceWellShaped rest

/-- The shape of the alternatives of a brace group. -/
def AlternativesWellShaped : List (List Node) → Prop
  | [] => True
  | alt :: alts => SequenceWellShaped alt ∧ AlternativesWellShaped alts

end

mutual

/-- How deep groups that are written in braces nest in a node. -/
def braceDepth : Node → Nat
  | .oneOf alts => if alts.all isClassMember then 0 else alternativesBraceDepth alts + 1
  | _ => 0

/-- How deep groups that are written in braces nest in a sequence. -/
def sequenceBraceDepth : List Node → Nat
  | [] => 0
  | node :: rest => max (braceDepth node) (sequenceBraceDepth rest)

/-- How deep groups that are written in braces nest in some alternatives. -/
def alternativesBraceDepth : List (List Node) → Nat
  | [] => 0
  | alt :: alts => max (sequenceBraceDepth alt) (alternativesBraceDepth alts)

end

/-- A sequence of the shape that reading produces. -/
structure Canonical (nodes : List Node) : Prop where
  /-- The nodes are of the right shape. -/
  wellShaped : SequenceWellShaped nodes
  /-- Brace groups nest no deeper than is allowed. -/
  braceDepth_le : sequenceBraceDepth nodes ≤ maxGroupDepth

theorem alternativesWellShaped_iff {alts : List (List Node)} :
    AlternativesWellShaped alts ↔ ∀ alt ∈ alts, SequenceWellShaped alt := by
  induction alts with
  | nil => simp [AlternativesWellShaped]
  | cons alt alts ih => simp [AlternativesWellShaped, ih]

theorem isClassMember_of_isMember {alt : List Node} (h : IsMember alt) :
    isClassMember alt = true := by
  unfold IsMember at h
  split at h
  · rfl
  · rfl
  · exact h.elim

end PathGlob.Node
