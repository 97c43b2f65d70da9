import PathGlob.Search.Move
import PathGlob.Proofs.Search.Places

/-!
# Positions stay in the path

A search that starts in its path stays in it: the position of a state is never beyond the end of the
path. Where a choice is taken up, the position comes from the path or from the choice, and only the
alternatives of a group remember a position by themselves, the one at which the group was entered.
-/

namespace PathGlob.Search

/-- The position that a choice remembers is in the path. The places of a wildcard are looked up when
the choice is taken up, so they need no condition. -/
def Choice.InPath (path : Path) : Choice → Prop
  | .alternatives _ pos => pos ≤ path.size
  | .span _ _ | .separators _ _ => True

/-- The positions of a state are in the path. -/
structure State.InPath (path : Path) (s : State) : Prop where
  /-- That of the state itself is. -/
  pos_le : s.pos ≤ path.size
  /-- Those of its choices are. -/
  stack : ∀ frame ∈ s.stack, frame.choice.InPath path

/-- The positions of the state that a move leads to are in the path. -/
def Outcome.InPath (path : Path) : Outcome → Prop
  | .running s => s.InPath path
  | .done _ | .dangling => True

theorem inPath_initial {path : Path} {pos : Nat} (hpos : pos ≤ path.size) (nodes : List Node) :
    (State.initial nodes pos).InPath path where
  pos_le := hpos
  stack frame hframe := by simp [State.initial] at hframe

/-! ## Dead ends -/

theorem Choice.InPath.resume {path : Path} {choice choice' : Choice} {nodes : List Node}
    {pos : Nat} (h : choice.InPath path) (hr : choice.resume path = some (nodes, pos, choice')) :
    pos ≤ path.size ∧ choice'.InPath path := by
  cases choice with
  | span rest last =>
    rw [Choice.resume] at hr
    split at hr
    · next htext =>
      cases hr
      exact ⟨Path.lt_size_of_hasText htext, trivial⟩
    · cases hr
  | separators rest start =>
    obtain ⟨i, hi, heq⟩ := Option.map_eq_some_iff.mp hr
    cases heq
    exact ⟨Nat.le_of_lt (Path.nextSeparator_bounds hi).2, trivial⟩
  | alternatives alts pos =>
    cases alts with
    | nil => cases hr
    | cons alt alts =>
      cases hr
      exact ⟨h, h⟩

theorem inPath_backtrack {path : Path} {arena : Array Continuation} {stack : List Frame}
    (h : ∀ frame ∈ stack, frame.choice.InPath path) : (backtrack path arena stack).InPath path := by
  induction stack with
  | nil => trivial
  | cons frame stack ih =>
    obtain ⟨hframe, hstack⟩ := List.forall_mem_cons.mp h
    rw [backtrack]
    split
    · exact ih hstack
    · next nodes pos choice hresume =>
      obtain ⟨hpos, hchoice⟩ := hframe.resume hresume
      exact ⟨hpos, List.forall_mem_cons.mpr ⟨hchoice, hstack⟩⟩

/-! ## Moves -/

namespace State.InPath

variable {s : State} {w : Setting} (h : s.InPath w.path)

include h

theorem fail : (s.fail w).InPath w.path := inPath_backtrack h.stack

theorem goOn {nodes : List Node} {pos : Nat} (hpos : pos ≤ w.path.size) :
    (s.goOn nodes pos).InPath w.path := ⟨hpos, h.stack⟩

theorem goOnWith {choice : Choice} {nodes : List Node} {pos : Nat} (hpos : pos ≤ w.path.size)
    (hchoice : choice.InPath w.path) : (s.goOnWith choice nodes pos).InPath w.path :=
  ⟨hpos, List.forall_mem_cons.mpr ⟨hchoice, h.stack⟩⟩

theorem leave : (s.leave w).InPath w.path := by
  rw [State.leave]
  split
  · split
    · exact h.fail
    · trivial
  · split
    · trivial
    · next k hk =>
      refine ⟨h.pos_le, ?_⟩
      intro frame hframe
      exact h.stack frame ((cutBack_suffix _ _).subset hframe)

theorem enter (rest : List Node) (alts : List (List Node)) :
    (s.enter w rest alts).InPath w.path := by
  cases alts with
  | nil => exact h.fail
  | cons alt alts =>
    refine ⟨h.pos_le, ?_⟩
    intro frame hframe
    dsimp only at hframe
    split at hframe
    · exact h.stack frame hframe
    · rcases List.mem_cons.mp hframe with rfl | hmem
      · exact h.pos_le
      · exact h.stack frame hmem

theorem exclude (rest : List Node) (alts : List (List Node)) :
    (s.exclude w rest alts).InPath w.path := by
  rw [State.exclude]
  split
  · exact h.fail
  split
  · split
    · trivial
    · exact h.goOn h.pos_le
  split
  · next hlt => exact h.goOn hlt
  · exact h.fail

theorem spread (rest : List Node) : (s.spread w rest).InPath w.path := by
  rw [State.spread]
  split
  · split
    · exact h.goOn h.pos_le
    · next i hi => exact h.goOnWith (Nat.le_of_lt (Path.nextSeparator_bounds hi).2) trivial
  · exact h.goOnWith h.pos_le trivial

theorem visit (rest : List Node) (node : Node) : (s.visit w rest node).InPath w.path := by
  cases node with
  | globstar => exact h.spread rest
  | oneOf alts => exact h.enter rest alts
  | noneOf alts => exact h.exclude rest alts
  | slash | anyChar | range =>
    rw [State.visit]
    split
    · next hrune => exact h.goOn (Path.lt_size_of_any hrune)
    · exact h.fail
  | literal runes =>
    rw [State.visit]
    split
    · next hspells => exact h.goOn (Path.add_length_le_of_spells hspells h.pos_le)
    · exact h.fail
  | anyText =>
    rw [State.visit]
    split
    · exact h.goOnWith h.pos_le trivial
    · exact h.goOn h.pos_le

/-- Every move stays in the path. -/
theorem next {s' : State} (hs : s.next w = .running s') : s'.InPath w.path := by
  have hnext : (s.next w).InPath w.path := by
    rw [State.next]
    split
    · exact h.leave
    · exact h.visit _ _
  rwa [hs] at hnext

end State.InPath

end PathGlob.Search
