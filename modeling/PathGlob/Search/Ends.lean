import PathGlob.Flags
import PathGlob.Path
import PathGlob.Pattern

/-!
# The ends of a walk

What a search decides can be said without a stack, without continuations and without cuts: walking a
sequence from a position has a list of ends, in the order in which a search would come upon them,
and each node maps a position to such a list. Sequences compose their nodes' lists, alternatives are
listed one behind the other, and a group that commits keeps the first end of its list and no other.

An end is either a position or a stop. A negated class under `legacyNegation` stops its sequence
where it stands: nodes behind it in the same sequence are passed over. A stop inside an alternative
ends that alternative only; a stop at top level ends the search, even if some of the path is left.

The lists repeat an end if there are several ways to it, and under `legacyGlobstar` the last
separator is listed twice, since the double star falls back to it once all separators have failed.
-/

namespace PathGlob

namespace Path

/-- The positions from `pos` on up to the end of its segment. -/
def segmentRest (path : Path) (pos : Nat) : List Nat :=
  if path.hasText pos then pos :: segmentRest path (pos + 1) else [pos]
termination_by path.size - pos
decreasing_by
  have := lt_size_of_hasText ‹_›
  omega

/-- The positions of separators at or behind `pos`, in increasing order. -/
def separatorsFrom (path : Path) (pos : Nat) : List Nat :=
  (List.range' pos (path.size - pos)).filter path.hasSeparator

/-- Where a double star lets its rest go on: at once, and then at every later separator. -/
def globstarPlaces (path : Path) (pos : Nat) : List Nat :=
  pos :: path.separatorsFrom (pos + 1)

/-- Where a double star lets its rest go on under `legacyGlobstar`: at every separator and then at
the last one again, or at once if there is none. -/
def legacyGlobstarPlaces (path : Path) (pos : Nat) : List Nat :=
  match (path.separatorsFrom pos).getLast? with
  | none => [pos]
  | some last => path.separatorsFrom pos ++ [last]

end Path

namespace Search

/-- Where a walk of a sequence ends. -/
inductive End where
  /-- Every node was walked, and the walk ends at a position. -/
  | reached (pos : Nat)
  /-- A negated class stopped the sequence at a position. -/
  | stopped (pos : Nat)
  deriving DecidableEq

namespace End

/-- The position of an end. -/
def pos : End → Nat
  | .reached pos => pos
  | .stopped pos => pos

/-- The end of a walk inside an alternative, as the group around it sees it. -/
def leave (e : End) : End := .reached e.pos

/-- The ends of going on from an end: a stop passes over what comes behind. -/
def goOn (e : End) (rest : Nat → List End) : List End :=
  match e with
  | .reached pos => rest pos
  | .stopped pos => [.stopped pos]

/-- Whether an end of a walk at top level is a match: a stop always is, and otherwise the whole path
may have to be walked. -/
def isMatch (path : Path) (flags : Flags) : End → Bool
  | .reached pos => !flags.has .fullMatch || pos == path.size
  | .stopped _ => true

end End

mutual

/-- The ends of walking one node from a position. -/
def nodeEnds (path : Path) (flags : Flags) : Node → Nat → List End
  | .slash, pos => if path.hasSeparator pos then [.reached (pos + 1)] else []
  | .globstar, pos =>
    (if flags.has .legacyGlobstar then path.legacyGlobstarPlaces pos
      else path.globstarPlaces pos).map .reached
  | .anyChar, pos => if path.hasText pos then [.reached (pos + 1)] else []
  | .anyText, pos => (path.segmentRest pos).map .reached
  | .literal runes, pos =>
    if path.spells pos runes then [.reached (pos + runes.length)] else []
  | .range lo hi, pos => if path.hasBetween pos lo hi then [.reached (pos + 1)] else []
  | .oneOf alts, pos =>
    if flags.has .fullMatch then alternativesEnds path flags alts pos
    else (alternativesEnds path flags alts pos).take 1
  | .noneOf alts, pos =>
    if alternativesEnds path (flags.erase .fullMatch) alts pos != [] then []
    else if flags.has .legacyNegation then [.stopped pos]
    else if pos < path.size then [.reached (pos + 1)]
    else []

/-- The ends of walking a sequence from a position. -/
def sequenceEnds (path : Path) (flags : Flags) : List Node → Nat → List End
  | [], pos => [.reached pos]
  | node :: rest, pos =>
    (nodeEnds path flags node pos).flatMap fun e ↦ e.goOn fun p ↦ sequenceEnds path flags rest p

/-- The ends of walking each alternative in turn from a position, as the group sees them. -/
def alternativesEnds (path : Path) (flags : Flags) : List (List Node) → Nat → List End
  | [], _ => []
  | alt :: alts, pos =>
    (sequenceEnds path flags alt pos).map End.leave ++ alternativesEnds path flags alts pos

end

/-- Whether some walk of a sequence from the start of a path is a match. -/
def hasMatch (path : Path) (flags : Flags) (nodes : List Node) : Bool :=
  (sequenceEnds path flags nodes 0).any (End.isMatch path flags)

@[simp] theorem sequenceEnds_nil (path : Path) (flags : Flags) (pos : Nat) :
    sequenceEnds path flags [] pos = [.reached pos] := by
  simp [sequenceEnds]

@[simp] theorem sequenceEnds_cons (path : Path) (flags : Flags) (node : Node) (rest : List Node)
    (pos : Nat) : sequenceEnds path flags (node :: rest) pos =
      (nodeEnds path flags node pos).flatMap (·.goOn (sequenceEnds path flags rest)) := by
  rw [sequenceEnds]

theorem sequenceEnds_append (path : Path) (flags : Flags) (left right : List Node) (pos : Nat) :
    sequenceEnds path flags (left ++ right) pos =
      (sequenceEnds path flags left pos).flatMap (·.goOn (sequenceEnds path flags right)) := by
  induction left generalizing pos with
  | nil => simp [End.goOn]
  | cons node left ih =>
    rw [List.cons_append, sequenceEnds_cons, sequenceEnds_cons, List.flatMap_assoc]
    congr 1
    funext e
    cases e with
    | reached p => exact ih p
    | stopped p => simp [End.goOn]

end Search

end PathGlob
