import PathGlob.Search.Cost

/-!
# Running a search

A search is run by making moves until it is over. It ends because every move from a sound state
lowers the cost, and it ends with an answer because a sound state names no continuation that is not
there; both facts are used here to define `run` without a bound on the number of moves.

A negated group needs searches of its own, which may meet further negated groups. They nest only as
deep as the groups do, so `search` counts the levels that are left: a search of one level looks
ahead with searches of the level below. Looking ahead never asks for the whole path, whatever the
flags say. `accepts` starts with as many levels as the nodes call for, so that the lowest level,
which has no answer of its own, is never asked.
-/

namespace PathGlob

/-! ## The depth of negation -/

mutual

/-- How deep negated groups nest in a node. -/
def Node.negationDepth : Node → Nat
  | .oneOf alts => alternativesNegationDepth alts
  | .noneOf alts => alternativesNegationDepth alts + 1
  | _ => 0

/-- How deep negated groups nest in a sequence. -/
def Node.sequenceNegationDepth : List Node → Nat
  | [] => 0
  | node :: rest => max (negationDepth node) (sequenceNegationDepth rest)

/-- How deep negated groups nest in the alternatives of a group. -/
def Node.alternativesNegationDepth : List (List Node) → Nat
  | [] => 0
  | alt :: alts => max (sequenceNegationDepth alt) (alternativesNegationDepth alts)

end

namespace Search

/-! ## Runs -/

/-- Makes moves until the search is over. -/
def run (w : Setting) (s : State) (h : s.Sound) : Bool :=
  match hs : s.next w with
  | .running s' => run w s' (h.next hs)
  | .done accepted => accepted
  | .dangling => (h.next_ne_dangling hs).elim
termination_by s.cost w.path.size
decreasing_by exact h.cost_lt_of_next hs

/-- Whether a sequence, walked from a position, matches. Negated groups look ahead with the levels
below, and without asking for the whole path. -/
def search (path : Path) : (level : Nat) → Flags → List Node → Nat → Bool
  | 0, _, _, _ => false
  | level + 1, flags, nodes, pos =>
    run ⟨path, flags, search path level (flags.erase .fullMatch)⟩ (.initial nodes pos)
      (sound_initial nodes pos)

/-- Whether a sequence matches a path. -/
def accepts (path : Path) (flags : Flags) (nodes : List Node) : Bool :=
  search path (Node.sequenceNegationDepth nodes + 1) flags nodes 0

theorem run_of_running {w : Setting} {s s' : State} (h : s.Sound) (hs : s.next w = .running s') :
    run w s h = run w s' (h.next hs) := by
  rw [run]
  split
  · next heq => rw [hs] at heq; cases heq; rfl
  · next heq => rw [hs] at heq; cases heq
  · next heq => rw [hs] at heq; cases heq

theorem run_of_done {w : Setting} {s : State} {accepted : Bool} (h : s.Sound)
    (hs : s.next w = .done accepted) : run w s h = accepted := by
  rw [run]
  split
  · next heq => rw [hs] at heq; cases heq
  · next heq => rw [hs] at heq; cases heq; rfl
  · next heq => rw [hs] at heq; cases heq

end Search

/-- Whether a pattern matches a path. -/
def Pattern.accepts (p : Pattern) (path : Path) (flags : Flags) : Bool :=
  Search.accepts path flags p.nodes

end PathGlob
