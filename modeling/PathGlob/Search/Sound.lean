import PathGlob.Search.Move

/-!
# What every move keeps

The indices of a state have to name the continuations they were made for. `State.Sound` says so:
the parent of a continuation stands before it in the arena, the continuation of the state is in the
arena, and the continuation of a frame was already there when the frame was pushed. The sizes that
the frames remember do not grow from the top of the stack to its bottom, so whatever shrinks the
arena for one frame leaves alone what the frames below it need.

Main statements: a search starts soundly (`sound_initial`), every kind of move keeps soundness
(`Sound.move`) and so does making one (`Sound.next`), and a sound state never names a continuation
that is not there (`Sound.next_ne_dangling`).
-/

namespace PathGlob.Search

/-- Each frame's continuation was in the arena when the frame was pushed, and the arena was then no
larger than `limit` and no larger than when the frame above was pushed. -/
def StackSound : Nat → List Frame → Prop
  | _, [] => True
  | limit, frame :: stack =>
    frame.arenaSize ≤ limit ∧ (∀ i, frame.continuation = some i → i < frame.arenaSize) ∧
      StackSound frame.arenaSize stack

/-- Each continuation's parent stands before it. -/
def ArenaSound (arena : Array Continuation) : Prop :=
  ∀ (i : Nat) (k : Continuation) (p : Nat), arena[i]? = some k → k.parent = some p → p < i

/-- The indices of a state name what they were made for. -/
structure State.Sound (s : State) : Prop where
  /-- Parents stand before their children. -/
  arena : ArenaSound s.arena
  /-- The continuation is in the arena. -/
  continuation : ∀ i, s.continuation = some i → i < s.arena.size
  /-- The stack fits the arena. -/
  stack : StackSound s.arena.size s.stack

/-! ## Stacks -/

theorem StackSound.mono {a b : Nat} {stack : List Frame} (hab : a ≤ b) (h : StackSound a stack) :
    StackSound b stack := by
  cases stack with
  | nil => trivial
  | cons frame stack => exact ⟨Nat.le_trans h.1 hab, h.2⟩

theorem StackSound.of_append {limit : Nat} {above stack : List Frame}
    (h : StackSound limit (above ++ stack)) : StackSound limit stack := by
  induction above generalizing limit with
  | nil => exact h
  | cons frame above ih => exact ih (h.2.2.mono h.1)

theorem StackSound.cutBack {limit : Nat} {stack : List Frame} (h : StackSound limit stack)
    (cut : Option Nat) : StackSound limit (cutBack stack cut) := by
  obtain ⟨above, heq⟩ := cutBack_suffix stack cut
  rw [← heq] at h
  exact h.of_append

/-! ## Arenas -/

theorem getElem?_shrink {α : Type} (xs : Array α) (n i : Nat) :
    (xs.shrink n)[i]? = if i < n then xs[i]? else none := by
  grind [Array.size_shrink, Array.getElem_shrink]

theorem getElem?_shrink_below {α : Type} (xs : Array α) (n : Nat) :
    ∀ i < n, (xs.shrink n)[i]? = xs[i]? := by
  intro i hi
  rw [getElem?_shrink, if_pos hi]

theorem ArenaSound.push {arena : Array Continuation} (h : ArenaSound arena) {k : Continuation}
    (hk : ∀ p, k.parent = some p → p < arena.size) : ArenaSound (arena.push k) := by
  intro i k' p hi hp
  rw [Array.getElem?_push] at hi
  split at hi
  · next heq => cases hi; rw [heq]; exact hk p hp
  · exact h i k' p hi hp

theorem ArenaSound.shrink {arena : Array Continuation} (h : ArenaSound arena) (n : Nat) :
    ArenaSound (arena.shrink n) := by
  intro i k p hi hp
  rw [getElem?_shrink] at hi
  split at hi
  · exact h i k p hi hp
  · cases hi

/-! ## Moves -/

theorem sound_initial (nodes : List Node) (pos : Nat) : (State.initial nodes pos).Sound where
  arena i k p hi := by simp [State.initial] at hi
  continuation i hi := by simp [State.initial] at hi
  stack := trivial

theorem State.Sound.move {w : Setting} {s s' : State} (h : s.Sound) (hm : Move w s s') :
    s'.Sound := by
  cases hm with
  | @resume exhausted stack frame nodes pos choice hstack hexhausted hresume =>
    have hbelow := h.stack
    rw [hstack] at hbelow
    obtain ⟨hsize, hcont, hrest⟩ := hbelow.of_append
    have hshrink : (s.arena.shrink frame.arenaSize).size = frame.arenaSize := by
      rw [Array.size_shrink, Nat.min_eq_left hsize]
    refine ⟨h.arena.shrink _, ?_, ?_⟩
    · rwa [hshrink]
    · rw [hshrink]
      exact ⟨Nat.le_refl _, hcont, hrest⟩
  | @leave i k hnodes hi hk =>
    refine ⟨h.arena, ?_, h.stack.cutBack _⟩
    intro p hp
    exact Nat.lt_trans (h.arena i k p hk hp) (h.continuation i hi)
  | goOn hnodes => exact ⟨h.arena, h.continuation, h.stack⟩
  | goOnWith hnodes hchoice =>
    exact ⟨h.arena, h.continuation, Nat.le_refl _, h.continuation, h.stack⟩
  | @enter alt rest alts hnodes =>
    -- the continuation of the group is the last one, so both the state and the frame may name it
    have hinside : ∀ i, some s.arena.size = some i → i < s.arena.size + 1 := by
      rintro i ⟨⟩
      exact Nat.lt_succ_self _
    have hstack := h.stack.mono (Nat.le_succ s.arena.size)
    refine ⟨h.arena.push h.continuation, ?_, ?_⟩
    · rwa [Array.size_push]
    · rw [Array.size_push]
      split
      · exact hstack
      · exact ⟨Nat.le_refl _, hinside, hstack⟩

theorem State.Sound.next {w : Setting} {s s' : State} (h : s.Sound)
    (hs : s.next w = .running s') : s'.Sound :=
  h.move (move_of_next hs)

/-! ## No dangling continuation -/

theorem backtrack_ne_dangling {path : Path} {arena : Array Continuation} {stack : List Frame} :
    backtrack path arena stack ≠ .dangling := by
  induction stack with
  | nil => simp [backtrack]
  | cons frame stack ih =>
    rw [backtrack]
    split
    · exact ih
    · simp

theorem visit_ne_dangling {s : State} {w : Setting} {rest : List Node} {node : Node} :
    s.visit w rest node ≠ .dangling := by
  have hfail : s.fail w ≠ .dangling := backtrack_ne_dangling
  cases node with
  | slash | anyChar | anyText | literal | range =>
    rw [State.visit]
    split <;> simp [hfail, State.goOn, State.goOnWith]
  | globstar =>
    rw [State.visit, State.spread]
    repeat' split
    all_goals simp [State.goOn, State.goOnWith]
  | oneOf alts => cases alts <;> simp [State.visit, State.enter, hfail]
  | noneOf alts =>
    rw [State.visit, State.exclude]
    repeat' split
    all_goals simp [hfail, State.goOn]

namespace State.Sound

variable {s : State} {w : Setting}

theorem leave_ne_dangling (h : s.Sound) : s.leave w ≠ .dangling := by
  rw [State.leave]
  split
  · split
    · exact backtrack_ne_dangling
    · simp
  · next i hi =>
    rw [Array.getElem?_eq_getElem (h.continuation i hi)]
    simp

/-- A sound state names no continuation that is not there. -/
theorem next_ne_dangling (h : s.Sound) : s.next w ≠ .dangling := by
  rw [State.next]
  split
  · exact h.leave_ne_dangling
  · exact visit_ne_dangling

end State.Sound

end PathGlob.Search
