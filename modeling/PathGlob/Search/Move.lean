import PathGlob.Search.State

/-!
# Kinds of moves

A move of a search does one of five things: it takes up a choice of the stack, it leaves a brace
group, it goes on in the sequence at hand, it goes on and leaves a choice open, or it enters a brace
group. `Move` lists them with the state that each leads to, and `move_of_next` says that there are
no others. What a search keeps is proved from this list, so that the rules for the single nodes are
looked into once.

Two kinds of node may leave a choice open, and the choice holds what comes behind the node; taking
up a choice of the stack leaves the choices below it as they were.
-/

namespace PathGlob.Search

variable {w : Setting} {s s' : State}

/-- The moves of a search, by what they do. -/
inductive Move (w : Setting) (s : State) : State → Prop
  /-- A choice of the stack is taken up, since those above it are exhausted. -/
  | resume {exhausted stack : List Frame} {frame : Frame} {nodes : List Node} {pos : Nat}
    {choice : Choice} (hstack : s.stack = exhausted ++ frame :: stack)
    (hexhausted : ∀ f ∈ exhausted, f.choice.resume w.path = none)
    (hresume : frame.choice.resume w.path = some (nodes, pos, choice)) :
    Move w s ⟨nodes, pos, frame.continuation,
      ⟨choice, frame.continuation, frame.arenaSize⟩ :: stack, s.arena.shrink frame.arenaSize⟩
  /-- The end of an alternative is left for what comes behind its group. -/
  | leave {i : Nat} {k : Continuation} (hnodes : s.nodes = []) (hi : s.continuation = some i)
    (hk : s.arena[i]? = some k) :
    Move w s ⟨k.rest, s.pos, k.parent, cutBack s.stack k.cut, s.arena⟩
  /-- The search goes on with what comes later in the sequence. -/
  | goOn {nodes : List Node} {pos : Nat} (hnodes : nodes <:+ s.nodes) :
    Move w s ⟨nodes, pos, s.continuation, s.stack, s.arena⟩
  /-- A wildcard is passed, and other places for what comes behind it are left open. -/
  | goOnWith {choice : Choice} {node : Node} {rest : List Node} {pos : Nat}
    (hnodes : s.nodes = node :: rest)
    (hchoice : node = .anyText ∧ choice = .span rest s.pos ∨
      node = .globstar ∧ ∃ start, choice = .separators rest start) :
    Move w s ⟨rest, pos, s.continuation, ⟨choice, s.continuation, s.arena.size⟩ :: s.stack, s.arena⟩
  /-- The first alternative of a group is entered, and the others are left open. -/
  | enter {alt rest : List Node} {alts : List (List Node)}
    (hnodes : s.nodes = .oneOf (alt :: alts) :: rest) :
    Move w s ⟨alt, s.pos, some s.arena.size,
      if alts.isEmpty then s.stack
      else ⟨.alternatives alts s.pos, some s.arena.size, s.arena.size + 1⟩ :: s.stack,
      s.arena.push ⟨rest, s.continuation,
        if w.flags.has .fullMatch then none else some s.stack.length⟩⟩

theorem cutBack_suffix (stack : List Frame) (cut : Option Nat) : cutBack stack cut <:+ stack := by
  cases cut with
  | none => exact List.suffix_rfl
  | some height => exact List.drop_suffix _ _

/-- Behind a dead end a choice of the stack is taken up, and those above it were exhausted. -/
theorem exists_of_backtrack {path : Path} {arena : Array Continuation} {stack : List Frame}
    (h : backtrack path arena stack = .running s') :
    ∃ exhausted below frame nodes pos choice, stack = exhausted ++ frame :: below ∧
      (∀ f ∈ exhausted, f.choice.resume path = none) ∧
      frame.choice.resume path = some (nodes, pos, choice) ∧
      s' = ⟨nodes, pos, frame.continuation,
        ⟨choice, frame.continuation, frame.arenaSize⟩ :: below, arena.shrink frame.arenaSize⟩ := by
  induction stack with
  | nil => cases h
  | cons frame stack ih =>
    rw [backtrack] at h
    split at h
    · next hnone =>
      obtain ⟨exhausted, below, f, nodes, pos, choice, rfl, hexhausted, hresume, hs⟩ := ih h
      refine ⟨frame :: exhausted, below, f, nodes, pos, choice, rfl, ?_, hresume, hs⟩
      intro f hf
      rcases List.mem_cons.mp hf with rfl | hf
      · exact hnone
      · exact hexhausted f hf
    · next nodes pos choice hresume =>
      cases h
      exact ⟨[], stack, frame, nodes, pos, choice, rfl, by simp, hresume, rfl⟩

theorem move_of_fail (hs : s.fail w = .running s') : Move w s s' := by
  obtain ⟨exhausted, below, frame, nodes, pos, choice, hstack, hexhausted, hresume, rfl⟩ :=
    exists_of_backtrack hs
  exact .resume hstack hexhausted hresume

theorem move_of_goOn {nodes : List Node} {pos : Nat} (hnodes : nodes <:+ s.nodes)
    (hs : s.goOn nodes pos = .running s') : Move w s s' := by
  cases hs
  exact .goOn hnodes

theorem move_of_leave (hnodes : s.nodes = []) (hs : s.leave w = .running s') : Move w s s' := by
  rw [State.leave] at hs
  split at hs
  · split at hs
    · exact move_of_fail hs
    · cases hs
  · next i hi =>
    split at hs
    · cases hs
    · next k hk =>
      cases hs
      exact .leave hnodes hi hk

theorem move_of_enter {rest : List Node} {alts : List (List Node)}
    (hnodes : s.nodes = .oneOf alts :: rest) (hs : s.enter w rest alts = .running s') :
    Move w s s' := by
  cases alts with
  | nil => exact move_of_fail hs
  | cons alt alts =>
    cases hs
    exact .enter hnodes

theorem move_of_exclude {rest : List Node} {alts : List (List Node)}
    (hnodes : s.nodes = .noneOf alts :: rest) (hs : s.exclude w rest alts = .running s') :
    Move w s s' := by
  rw [State.exclude] at hs
  split at hs
  · exact move_of_fail hs
  split at hs
  · split at hs
    · cases hs
    · -- a stop passes over the rest of the sequence, whose last part is the empty one
      exact move_of_goOn List.nil_suffix hs
  split at hs
  · exact move_of_goOn (hnodes ▸ List.suffix_cons _ _) hs
  · exact move_of_fail hs

theorem move_of_spread {rest : List Node} (hnodes : s.nodes = .globstar :: rest)
    (hs : s.spread w rest = .running s') : Move w s s' := by
  rw [State.spread] at hs
  split at hs
  · split at hs
    · exact move_of_goOn (hnodes ▸ List.suffix_cons _ _) hs
    · cases hs
      exact .goOnWith hnodes (.inr ⟨rfl, _, rfl⟩)
  · cases hs
    exact .goOnWith hnodes (.inr ⟨rfl, _, rfl⟩)

theorem move_of_visit {node : Node} {rest : List Node} (hnodes : s.nodes = node :: rest)
    (hs : s.visit w rest node = .running s') : Move w s s' := by
  have hrest : rest <:+ s.nodes := hnodes ▸ List.suffix_cons _ _
  cases node with
  | globstar => exact move_of_spread hnodes hs
  | oneOf alts => exact move_of_enter hnodes hs
  | noneOf alts => exact move_of_exclude hnodes hs
  | slash | anyChar | literal | range =>
    rw [State.visit] at hs
    split at hs
    · exact move_of_goOn hrest hs
    · exact move_of_fail hs
  | anyText =>
    rw [State.visit] at hs
    split at hs
    · cases hs
      exact .goOnWith hnodes (.inl ⟨rfl, rfl⟩)
    · exact move_of_goOn hrest hs

/-- There are no other moves. -/
theorem move_of_next (hs : s.next w = .running s') : Move w s s' := by
  rw [State.next] at hs
  split at hs
  · next hnodes => exact move_of_leave hnodes hs
  · next node rest hnodes => exact move_of_visit hnodes hs

end PathGlob.Search
