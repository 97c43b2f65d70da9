import Mathlib.Logic.Relation
import PathGlob.Proofs.Search.Cuts
import PathGlob.Proofs.Search.Positions

/-!
# The states that a search reaches

A search names continuations by their index in the arena and cuts by the height of the stack, and
both arena and stack grow and shrink while it runs. `State.Consistent` says that the numbers of a
state fit each other. The invariants of single moves carry it through a whole run: the indices are
sound, the cuts fit the stack, and the positions stay in the path.
-/

namespace PathGlob.Search

/-- Moves lead from one state to another. -/
def Setting.Reaches (w : Setting) : State → State → Prop :=
  Relation.ReflTransGen fun s s' ↦ s.next w = .running s'

/-- Moves lead from one state to another, and `P` holds of every state that they lead to. -/
def Setting.ReachesWithin (w : Setting) (P : State → Prop) : State → State → Prop :=
  Relation.ReflTransGen fun s s' ↦ s.next w = .running s' ∧ P s'

/-- The numbers of a state fit each other. -/
structure State.Consistent (path : Path) (s : State) : Prop where
  /-- The position is in the path. -/
  pos_le : s.pos ≤ path.size
  /-- The continuation is in the arena. -/
  continuation_lt : ∀ i ∈ s.continuation, i < s.arena.size
  /-- So is the parent of each continuation, and it stands before its child. -/
  parent_lt : ∀ (i : Nat) (k : Continuation), s.arena[i]? = some k →
    ∀ p ∈ k.parent, p < i ∧ p < s.arena.size
  /-- The continuation of each frame was in the arena when the frame was pushed, and still is. -/
  frame_continuation_lt : ∀ frame ∈ s.stack, ∀ i ∈ frame.continuation,
    i < frame.arenaSize ∧ i < s.arena.size
  /-- No frame remembers a larger arena than there is. -/
  arenaSize_le : ∀ frame ∈ s.stack, frame.arenaSize ≤ s.arena.size
  /-- The sizes that the frames remember do not fall from the bottom of the stack to its top. -/
  arenaSizes : s.stack.Pairwise fun upper lower ↦ lower.arenaSize ≤ upper.arenaSize
  /-- No cut behind the nodes still to be walked is above the stack. -/
  cut_le : ∀ k ∈ chain s.arena s.continuation, ∀ cut ∈ k.cut, cut ≤ s.stack.length
  /-- These cuts do not grow from the inside to the outside. -/
  cuts : (chain s.arena s.continuation).Pairwise fun inner outer ↦
    ∀ lower ∈ outer.cut, ∀ upper ∈ inner.cut, lower ≤ upper

variable {w : Setting} {s s' : State}

/-! ## Stacks and chains -/

theorem StackSound.of_mem {limit : Nat} {stack : List Frame} (h : StackSound limit stack) :
    ∀ frame ∈ stack, frame.arenaSize ≤ limit ∧
      ∀ i, frame.continuation = some i → i < frame.arenaSize := by
  induction stack generalizing limit with
  | nil => simp
  | cons top stack ih =>
    obtain ⟨hsize, hcont, hrest⟩ := h
    intro frame hframe
    rcases List.mem_cons.mp hframe with rfl | hmem
    · exact ⟨hsize, hcont⟩
    · exact ih (hrest.mono hsize) frame hmem

theorem StackSound.pairwise {limit : Nat} {stack : List Frame} (h : StackSound limit stack) :
    stack.Pairwise fun upper lower ↦ lower.arenaSize ≤ upper.arenaSize := by
  induction stack generalizing limit with
  | nil => exact .nil
  | cons top stack ih =>
    obtain ⟨-, -, hrest⟩ := h
    exact .cons (fun frame hframe ↦ (hrest.of_mem frame hframe).1) (ih hrest)

theorem CutsFit.cut_le {whole : Bool} {height : Nat} {ks : List Continuation}
    (h : CutsFit whole height ks) : ∀ k ∈ ks, ∀ cut ∈ k.cut, cut ≤ height := by
  induction ks generalizing height with
  | nil => simp
  | cons k ks ih =>
    obtain ⟨-, hcut, hks⟩ := h
    -- what fits the stack that the first cut leaves also fits the stack before it
    have hheight : k.cut.getD height ≤ height := by
      cases hk : k.cut with
      | none => exact Nat.le_refl _
      | some cut => exact hcut cut hk
    intro k' hk'
    rcases List.mem_cons.mp hk' with rfl | hmem
    · exact hcut
    · exact ih (hks.mono hheight) k' hmem

theorem CutsFit.pairwise {whole : Bool} {height : Nat} {ks : List Continuation}
    (h : CutsFit whole height ks) : ks.Pairwise fun inner outer ↦
      ∀ lower ∈ outer.cut, ∀ upper ∈ inner.cut, lower ≤ upper := by
  induction ks generalizing height with
  | nil => exact .nil
  | cons k ks ih =>
    obtain ⟨-, -, hks⟩ := h
    refine .cons ?_ (ih hks)
    intro outer houter lower hlower upper hupper
    have hle := hks.cut_le outer houter lower hlower
    rwa [show k.cut = some upper from hupper, Option.getD_some] at hle

/-! ## Runs -/

/-- What every move keeps is kept by a run, be it a search or a part of one. -/
theorem Setting.Reaches.induction {P : State → Prop} (h : w.Reaches s s') (hs : P s)
    (hnext : ∀ t u, P t → t.next w = .running u → P u) : P s' := by
  induction h with
  | refl => exact hs
  | tail _ hmove ih => exact hnext _ _ ih hmove

theorem Setting.Reaches.sound (h : w.Reaches s s') (hs : s.Sound) : s'.Sound :=
  h.induction hs fun _ _ ht hmove ↦ ht.next hmove

theorem Setting.Reaches.inPath (h : w.Reaches s s') (hs : s.InPath w.path) : s'.InPath w.path :=
  h.induction hs fun _ _ ht hmove ↦ ht.next hmove

theorem Setting.Reaches.cutsFit (h : w.Reaches s s') (hs : s.Sound)
    (hcuts : s.CutsFit (w.flags.has .fullMatch)) : s'.CutsFit (w.flags.has .fullMatch) := by
  refine (h.induction (P := fun t ↦ t.Sound ∧ t.CutsFit (w.flags.has .fullMatch))
    ⟨hs, hcuts⟩ ?_).2
  rintro t u ⟨ht, hfit⟩ hmove
  exact ⟨ht.next hmove, hfit.move ht (move_of_next hmove)⟩

/-- A run comes to the same answer from every state on its way. -/
theorem Setting.Reaches.run_eq (h : w.Reaches s s') (hs : s.Sound) :
    run w s hs = run w s' (h.sound hs) := by
  induction h with
  | refl => rfl
  | tail hbefore hmove ih =>
    exact ih.trans (run_of_running (Setting.Reaches.sound hbefore hs) hmove)

theorem State.Consistent.of_invariants {path : Path} {whole : Bool} (hsound : s.Sound)
    (hpath : s.InPath path) (hcuts : s.CutsFit whole) : s.Consistent path where
  pos_le := hpath.pos_le
  continuation_lt := hsound.continuation
  parent_lt i k hk p hp := by
    have hi : i < s.arena.size := (Array.getElem?_eq_some_iff.mp hk).1
    have hlt : p < i := hsound.arena i k p hk hp
    exact ⟨hlt, Nat.lt_trans hlt hi⟩
  frame_continuation_lt frame hframe i hi := by
    obtain ⟨hsize, hcont⟩ := hsound.stack.of_mem frame hframe
    exact ⟨hcont i hi, Nat.lt_of_lt_of_le (hcont i hi) hsize⟩
  arenaSize_le frame hframe := (hsound.stack.of_mem frame hframe).1
  arenaSizes := hsound.stack.pairwise
  cut_le := hcuts.chain.cut_le
  cuts := hcuts.chain.pairwise

end PathGlob.Search
