import PathGlob.Search.Run

/-!
# Cuts and the stack

A group that commits remembers how high the stack was when it was entered, and leaving it cuts the
stack back to that height. This is sound because the heights fit the stack: along a chain of
continuations they do not grow from the inside to the outside, and none of them is above the stack.
The same holds of every frame and the part of the stack below it, since a frame remembers the
continuation that the search had when the frame was pushed.

A search that has to match the whole path never cuts, and any other search cuts whenever it leaves a
group. So the cuts of a chain are all there or all missing, which is the first part of `CutsFit`.
-/

namespace PathGlob.Search

/-- The cuts of a chain fit a stack of some height: they are missing if `whole` says so, the
innermost one is not above the stack, and each fits the stack that the one before it leaves. -/
def CutsFit (whole : Bool) : Nat → List Continuation → Prop
  | _, [] => True
  | height, k :: ks =>
    k.cut.isNone = whole ∧ (∀ cut ∈ k.cut, cut ≤ height) ∧ CutsFit whole (k.cut.getD height) ks

/-- The cuts behind each frame fit the part of the stack below it. -/
def StackCutsFit (whole : Bool) (arena : Array Continuation) : List Frame → Prop
  | [] => True
  | frame :: stack =>
    CutsFit whole stack.length (chain arena frame.continuation) ∧ StackCutsFit whole arena stack

/-- The cuts of a state fit its stack. -/
structure State.CutsFit (whole : Bool) (s : State) : Prop where
  /-- Those behind the nodes still to be walked fit the whole stack. -/
  chain : Search.CutsFit whole s.stack.length (Search.chain s.arena s.continuation)
  /-- Those behind each frame fit the stack below it. -/
  stack : StackCutsFit whole s.arena s.stack

variable {whole : Bool} {w : Setting} {s s' : State}

/-! ## Chains -/

theorem CutsFit.mono {low high : Nat} {ks : List Continuation} (hle : low ≤ high)
    (h : CutsFit whole low ks) : CutsFit whole high ks := by
  induction ks generalizing low high with
  | nil => trivial
  | cons k ks ih =>
    obtain ⟨hnone, hcut, hks⟩ := h
    refine ⟨hnone, ?_, ?_⟩
    · intro cut hmem
      exact Nat.le_trans (hcut cut hmem) hle
    · -- a cut brings the stack to its own height, so only a missing one passes the height on
      cases hk : k.cut with
      | none => exact ih hle (by simpa [hk] using hks)
      | some cut => simpa [hk] using hks

theorem CutsFit.cut_eq_none {height : Nat} {ks : List Continuation} (h : CutsFit true height ks) :
    ∀ k ∈ ks, k.cut = none := by
  induction ks generalizing height with
  | nil => simp
  | cons k ks ih =>
    intro k' hk'
    rcases List.mem_cons.mp hk' with rfl | hmem
    · exact Option.isNone_iff_eq_none.mp h.1
    · exact ih h.2.2 k' hmem

theorem length_cutBack {stack : List Frame} {cut : Option Nat}
    (h : ∀ height ∈ cut, height ≤ stack.length) :
    (cutBack stack cut).length = cut.getD stack.length := by
  cases cut with
  | none => rfl
  | some height =>
    have hle := h height rfl
    rw [cutBack, List.length_drop, Option.getD_some]
    omega

theorem cutBack_cons {stack : List Frame} {height : Nat} (h : height ≤ stack.length)
    (frame : Frame) : cutBack (frame :: stack) (some height) = cutBack stack (some height) := by
  have hlen : (frame :: stack).length - height = stack.length - height + 1 := by
    rw [List.length_cons]
    omega
  rw [cutBack, cutBack, hlen, List.drop_succ_cons]

theorem cutBack_length (stack : List Frame) : cutBack stack (some stack.length) = stack := by
  rw [cutBack, Nat.sub_self, List.drop_zero]

/-! ## Stacks -/

theorem StackCutsFit.of_append {arena : Array Continuation} {above stack : List Frame}
    (h : StackCutsFit whole arena (above ++ stack)) : StackCutsFit whole arena stack := by
  induction above with
  | nil => exact h
  | cons frame above ih => exact ih h.2

theorem StackCutsFit.cutBack {arena : Array Continuation} {stack : List Frame}
    (h : StackCutsFit whole arena stack) (cut : Option Nat) :
    StackCutsFit whole arena (cutBack stack cut) := by
  obtain ⟨above, heq⟩ := cutBack_suffix stack cut
  rw [← heq] at h
  exact h.of_append

theorem StackCutsFit.congr {limit : Nat} {a b : Array Continuation} {stack : List Frame}
    (hab : ∀ i < limit, a[i]? = b[i]?) (hstack : StackSound limit stack)
    (h : StackCutsFit whole a stack) : StackCutsFit whole b stack := by
  induction stack generalizing limit with
  | nil => trivial
  | cons frame stack ih =>
    obtain ⟨hsize, hcont, hrest⟩ := hstack
    obtain ⟨hframe, hstack⟩ := h
    have hbelow : ∀ i < frame.arenaSize, a[i]? = b[i]? := by
      intro i hi
      exact hab i (Nat.lt_of_lt_of_le hi hsize)
    rw [chain_congr hbelow _ hcont] at hframe
    exact ⟨hframe, ih hbelow hrest hstack⟩

/-! ## Moves -/

theorem cutsFit_initial (nodes : List Node) (pos : Nat) :
    (State.initial nodes pos).CutsFit whole where
  chain := by simp [State.initial, CutsFit]
  stack := trivial

/-- The continuation of a group that is entered fits the stack at which it is entered. -/
theorem State.CutsFit.push (h : s.CutsFit whole) (hs : s.Sound) {k : Continuation}
    (hparent : k.parent = s.continuation)
    (hcut : k.cut = if whole then none else some s.stack.length) :
    Search.CutsFit whole s.stack.length (Search.chain (s.arena.push k) (some s.arena.size)) := by
  rw [chain_push hs hparent]
  cases whole with
  | true =>
    rw [if_pos rfl] at hcut
    exact ⟨by rw [hcut, Option.isNone_none], by simp [hcut], by simpa [hcut] using h.chain⟩
  | false =>
    rw [if_neg Bool.false_ne_true] at hcut
    exact ⟨by rw [hcut, Option.isNone_some], by simp [hcut], by simpa [hcut] using h.chain⟩

theorem State.CutsFit.move (h : s.CutsFit (w.flags.has .fullMatch)) (hs : s.Sound)
    (hm : Move w s s') : s'.CutsFit (w.flags.has .fullMatch) := by
  cases hm with
  | @resume exhausted stack frame nodes pos choice hstack hexhausted hresume =>
    have hsound := hs.stack
    have hfit := h.stack
    rw [hstack] at hsound hfit
    obtain ⟨-, hcont, hbelow⟩ := hsound.of_append
    obtain ⟨hframe, hrest⟩ := hfit.of_append
    -- the arena shrinks to the size at which the frame was pushed, so its chain is still there
    have hkept : ∀ i < frame.arenaSize, s.arena[i]? = (s.arena.shrink frame.arenaSize)[i]? :=
      fun i hi ↦ (getElem?_shrink_below _ _ i hi).symm
    rw [chain_congr hkept _ hcont] at hframe
    exact ⟨hframe.mono (Nat.le_succ _), hframe, hrest.congr hkept hbelow⟩
  | @leave i k hnodes hi hk =>
    have hfit := h.chain
    rw [hi, chain_some hs.arena hk] at hfit
    obtain ⟨-, hcut, hks⟩ := hfit
    refine ⟨?_, h.stack.cutBack _⟩
    rwa [length_cutBack hcut]
  | goOn hnodes => exact ⟨h.chain, h.stack⟩
  | goOnWith hnodes hchoice => exact ⟨h.chain.mono (Nat.le_succ _), h.chain, h.stack⟩
  | @enter alt rest alts hnodes =>
    generalize hcut : (if w.flags.has .fullMatch then none else some s.stack.length) = cut
    have hnew := h.push hs (k := ⟨rest, s.continuation, cut⟩) rfl hcut.symm
    have hold : StackCutsFit (w.flags.has .fullMatch)
        (s.arena.push ⟨rest, s.continuation, cut⟩) s.stack :=
      h.stack.congr (fun i hi ↦ (getElem?_push_below _ i hi).symm) hs.stack
    refine ⟨hnew.mono ?_, ?_⟩
    · split <;> simp
    · split
      · exact hold
      · exact ⟨hnew, hold⟩

end PathGlob.Search
