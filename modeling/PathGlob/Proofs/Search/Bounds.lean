import PathGlob.Pattern.Count
import PathGlob.Proofs.Search.History

/-!
# How much a search keeps

A search keeps a stack of choices and an arena of continuations, and neither grows with the path or
with how often the search goes back. At every moment they belong to nodes that the walk at hand has
passed, and a walk passes each node of the pattern at most once: of a group it walks one
alternative, and taking up another one drops what was kept for the first.

A state does not say which nodes its walk has passed, but it says which are still ahead: those up to
the end of the sequence, and those behind the groups around it. So the invariant is a budget. The
frames on the stack and the choices ahead are together no more than the choices of the pattern, and
the continuations in the arena and the groups ahead no more than its groups. Each frame keeps the
same budget with the frames below it and with what is ahead of the choice that it holds, for that is
where the search goes on once the frame is taken up.
-/

namespace PathGlob.Search

open Node

variable {w : Setting} {s s' : State}

/-! ## What is ahead -/

/-- The nodes behind the groups that a continuation leads out of. -/
def behind (arena : Array Continuation) (c : Option Nat) : List Node :=
  (chain arena c).flatMap Continuation.rest

/-- The nodes that a choice holds, those of alternatives one behind the other. -/
def Choice.nodes : Choice → List Node
  | .span rest _ | .separators rest _ => rest
  | .alternatives alts _ => alts.flatten

/-- The nodes ahead of a state. -/
def State.ahead (s : State) : List Node := s.nodes ++ behind s.arena s.continuation

/-- The nodes ahead of the choice that a frame holds. -/
def Frame.ahead (frame : Frame) (arena : Array Continuation) : List Node :=
  frame.choice.nodes ++ behind arena frame.continuation

theorem behind_none (arena : Array Continuation) : behind arena none = [] := by
  rw [behind, chain_none, List.flatMap_nil]

theorem behind_some {arena : Array Continuation} (harena : ArenaSound arena) {i : Nat}
    {k : Continuation} (hk : arena[i]? = some k) :
    behind arena (some i) = k.rest ++ behind arena k.parent := by
  rw [behind, chain_some harena hk, List.flatMap_cons, behind]

theorem behind_push (h : s.Sound) {k : Continuation} (hk : k.parent = s.continuation) :
    behind (s.arena.push k) (some s.arena.size) = k.rest ++ behind s.arena s.continuation := by
  rw [behind, chain_push h hk, List.flatMap_cons, behind]

/-- What is ahead of a frame depends only on the part of the arena that the frame remembers. -/
theorem Frame.ahead_congr {frame : Frame} {a b : Array Continuation}
    (hab : ∀ i < frame.arenaSize, a[i]? = b[i]?)
    (hcont : ∀ i, frame.continuation = some i → i < frame.arenaSize) :
    frame.ahead a = frame.ahead b := by
  rw [Frame.ahead, Frame.ahead, behind, behind, chain_congr hab _ hcont]

theorem Choice.nodes_resume {path : Path} {choice choice' : Choice} {nodes : List Node} {pos : Nat}
    (hr : choice.resume path = some (nodes, pos, choice')) :
    nodes.Sublist choice.nodes ∧ choice'.nodes.Sublist choice.nodes := by
  match choice with
  | .span rest last =>
    rw [Choice.resume] at hr
    split at hr
    · cases hr
      exact ⟨List.Sublist.refl _, List.Sublist.refl _⟩
    · cases hr
  | .separators rest start =>
    obtain ⟨i, -, heq⟩ := Option.map_eq_some_iff.mp hr
    cases heq
    exact ⟨List.Sublist.refl _, List.Sublist.refl _⟩
  | .alternatives (alt :: alts) pos =>
    cases hr
    rw [Choice.nodes, List.flatten_cons]
    exact ⟨List.sublist_append_left _ _, List.sublist_append_right _ _⟩

/-! ## Budgets -/

/-- Some frames and continuations, together with the nodes ahead, keep within a number of choices
and one of groups. -/
structure Fits (choices groups frames continuations : Nat) (ahead : List Node) : Prop where
  /-- The frames and the choices ahead. -/
  choices_le : frames + sequenceCount leavesChoice ahead ≤ choices
  /-- The continuations and the groups ahead. -/
  groups_le : continuations + sequenceCount isPlainGroup ahead ≤ groups

/-- A state keeps within a number of choices and one of groups. -/
structure State.Fits (choices groups : Nat) (s : State) : Prop where
  /-- It does now. -/
  now : Search.Fits choices groups s.stack.length s.arena.size s.ahead
  /-- It will once a frame is taken up. -/
  stack : ∀ frame below, frame :: below <:+ s.stack →
    Search.Fits choices groups (below.length + 1) frame.arenaSize (frame.ahead s.arena)

variable {choices groups : Nat}

theorem Fits.mono {frames frames' continuations continuations' : Nat} {ahead ahead' : List Node}
    (h : Fits choices groups frames continuations ahead) (hframes : frames' ≤ frames)
    (hcontinuations : continuations' ≤ continuations) (hahead : ahead'.Sublist ahead) :
    Fits choices groups frames' continuations' ahead' where
  choices_le :=
    Nat.le_trans (Nat.add_le_add hframes (sequenceCount_le_of_sublist hahead)) h.choices_le
  groups_le :=
    Nat.le_trans (Nat.add_le_add hcontinuations (sequenceCount_le_of_sublist hahead)) h.groups_le

theorem forall_suffix_cons {P : Frame → List Frame → Prop} {top : Frame} {stack : List Frame}
    (htop : P top stack) (hstack : ∀ frame below, frame :: below <:+ stack → P frame below) :
    ∀ frame below, frame :: below <:+ top :: stack → P frame below := by
  intro frame below hframe
  rcases List.suffix_cons_iff.mp hframe with heq | hsuffix
  · obtain ⟨rfl, rfl⟩ := List.cons.inj heq
    exact htop
  · exact hstack frame below hsuffix

theorem fits_initial (nodes : List Node) (pos : Nat) :
    (State.initial nodes pos).Fits (sequenceCount leavesChoice nodes)
      (sequenceCount isPlainGroup nodes) where
  now := by
    have hahead : (State.initial nodes pos).ahead = nodes := by
      rw [State.ahead, State.initial, behind_none, List.append_nil]
    rw [hahead]
    exact ⟨Nat.le_of_eq (Nat.zero_add _), Nat.le_of_eq (Nat.zero_add _)⟩
  stack frame below hframe := absurd (List.suffix_nil.mp hframe) (List.cons_ne_nil _ _)

/-! ## Moves -/

namespace State.Fits

variable (h : s.Fits choices groups)

include h

theorem stack_congr {limit : Nat} {arena : Array Continuation} {stack : List Frame}
    (hstack : stack <:+ s.stack) (hsound : StackSound limit stack)
    (hkept : ∀ i < limit, s.arena[i]? = arena[i]?) :
    ∀ frame below, frame :: below <:+ stack →
      Search.Fits choices groups (below.length + 1) frame.arenaSize (frame.ahead arena) := by
  intro frame below hframe
  obtain ⟨hsize, hcont, -⟩ := hsound.of_suffix hframe
  rw [← Frame.ahead_congr (fun i hi ↦ hkept i (Nat.lt_of_lt_of_le hi hsize)) hcont]
  exact h.stack frame below (hframe.trans hstack)

/-- Behind a wildcard there is room for the frame that it leaves. -/
theorem wildcard {node : Node} {rest : List Node} (hnodes : s.nodes = node :: rest)
    (hnode : node = .anyText ∨ node = .globstar) :
    Search.Fits choices groups (s.stack.length + 1) s.arena.size
      (rest ++ behind s.arena s.continuation) := by
  obtain ⟨hchoices, hgroups⟩ := h.now
  rw [State.ahead, hnodes, List.cons_append, sequenceCount_cons] at hchoices hgroups
  have hone : node.count leavesChoice = 1 := by
    rcases hnode with rfl | rfl <;> simp [Node.count, leavesChoice]
  constructor <;> omega

/-- Inside a group there is room for its continuation and the frame of its other alternatives. -/
theorem group {alts : List (List Node)} {rest : List Node}
    (hnodes : s.nodes = .oneOf alts :: rest) :
    Search.Fits choices groups (s.stack.length + 1) (s.arena.size + 1)
      (alts.flatten ++ (rest ++ behind s.arena s.continuation)) := by
  obtain ⟨hchoices, hgroups⟩ := h.now
  rw [State.ahead, hnodes, List.cons_append, sequenceCount_cons, Node.count, alternativesCount_eq]
    at hchoices hgroups
  have hchoice : (leavesChoice (.oneOf alts)).toNat = 1 := rfl
  have hgroup : (isPlainGroup (.oneOf alts)).toNat = 1 := rfl
  constructor <;> rw [sequenceCount_append] <;> omega

theorem move (hs : s.Sound) (hm : Move w s s') : s'.Fits choices groups := by
  cases hm with
  | @resume exhausted stack frame nodes pos choice hstack hexhausted hresume =>
    have hsuffix : frame :: stack <:+ s.stack := hstack ▸ List.suffix_append _ _
    obtain ⟨-, hcont, hbelow⟩ := hs.stack.of_suffix hsuffix
    have hkept : ∀ i < frame.arenaSize, s.arena[i]? = (s.arena.shrink frame.arenaSize)[i]? :=
      fun i hi ↦ (getElem?_shrink_below _ _ i hi).symm
    have hsize : (s.arena.shrink frame.arenaSize).size ≤ frame.arenaSize := by
      rw [Array.size_shrink]
      exact Nat.min_le_left _ _
    obtain ⟨hnodes, hchoice⟩ := Choice.nodes_resume hresume
    have hframe := h.stack frame stack hsuffix
    -- what was pushed above the frame is gone, and with it the continuations made since then
    rw [Frame.ahead_congr hkept hcont] at hframe
    refine ⟨hframe.mono (Nat.le_refl _) hsize (hnodes.append_right _), forall_suffix_cons ?_ ?_⟩
    · exact hframe.mono (Nat.le_refl _) (Nat.le_refl _) (hchoice.append_right _)
    · exact h.stack_congr ((List.suffix_cons _ _).trans hsuffix) hbelow hkept
  | @leave i k hnodes hi hk =>
    have hahead : s.ahead = k.rest ++ behind s.arena k.parent := by
      rw [State.ahead, hnodes, hi, behind_some hs.arena hk, List.nil_append]
    have hcut := cutBack_suffix s.stack k.cut
    refine ⟨h.now.mono hcut.length_le (Nat.le_refl _) (hahead ▸ List.Sublist.refl _), ?_⟩
    intro frame below hframe
    exact h.stack frame below (hframe.trans hcut)
  | goOn hnodes =>
    exact ⟨h.now.mono (Nat.le_refl _) (Nat.le_refl _) (hnodes.sublist.append_right _), h.stack⟩
  | @goOnWith choice node rest pos hnodes hchoice =>
    have hroom := h.wildcard hnodes (hchoice.imp And.left And.left)
    have hheld : choice.nodes = rest := by
      rcases hchoice with ⟨-, rfl⟩ | ⟨-, start, rfl⟩ <;> rfl
    refine ⟨hroom, forall_suffix_cons ?_ h.stack⟩
    rwa [Frame.ahead, hheld]
  | @enter alt rest alts hnodes =>
    generalize hk : (Continuation.mk rest s.continuation
      (if w.flags.has .fullMatch then none else some s.stack.length)) = k
    have hbehind : behind (s.arena.push k) (some s.arena.size) =
        rest ++ behind s.arena s.continuation := by
      rw [behind_push hs (by rw [← hk]), ← hk]
    -- one alternative is walked and the others are left to a frame, so none is counted twice
    have hroom := h.group hnodes
    rw [← hbehind, List.flatten_cons] at hroom
    have hkept : ∀ i < s.arena.size, s.arena[i]? = (s.arena.push k)[i]? :=
      fun i hi ↦ (getElem?_push_below k i hi).symm
    have hstack := h.stack_congr List.suffix_rfl hs.stack hkept
    refine ⟨hroom.mono ?_ (Nat.le_of_eq (Array.size_push k)) ?_, ?_⟩
    · dsimp only
      split
      · exact Nat.le_succ _
      · exact Nat.le_refl _
    · exact (List.sublist_append_left _ _).append_right _
    · dsimp only
      split
      · exact hstack
      · refine forall_suffix_cons (hroom.mono (Nat.le_refl _) (Nat.le_refl _) ?_) hstack
        exact (List.sublist_append_right _ _).append_right _

end State.Fits

/-! ## Runs -/

/-- **What a search keeps is bounded by its pattern.** However long the path is and however often
the search goes back, in every state that it reaches the stack holds at most as many frames as the
sequence has stars, double stars and plain groups, and the arena at most as many continuations as it
has plain groups, counted at every depth outside negated groups. For these the search starts others,
of which the same is true. -/
theorem size_le_of_reaches {nodes : List Node} {start : Nat}
    (hs : w.Reaches (.initial nodes start) s) :
    s.stack.length ≤ sequenceCount leavesChoice nodes ∧
      s.arena.size ≤ sequenceCount isPlainGroup nodes := by
  have hinitial : (State.initial nodes start).Sound := sound_initial nodes start
  obtain ⟨-, hfits⟩ : s.Sound ∧
      s.Fits (sequenceCount leavesChoice nodes) (sequenceCount isPlainGroup nodes) := by
    refine hs.induction (P := fun t ↦ t.Sound ∧ t.Fits _ _) ⟨hinitial, fits_initial nodes start⟩ ?_
    rintro t u ⟨hsound, hfits⟩ hnext
    exact ⟨hsound.next hnext, hfits.move hsound (move_of_next hnext)⟩
  obtain ⟨hchoices, hgroups⟩ := hfits.now
  exact ⟨Nat.le_trans (Nat.le_add_right _ _) hchoices, Nat.le_trans (Nat.le_add_right _ _) hgroups⟩

/-- A group with a star and a negated group in its first alternative, and then a double star, at
`ab`. When the walk comes to the end, a frame of each of the group and the two wildcards is left,
and the continuation of the group, so neither bound can be lowered. The negated group holds a group
and a double star of its own, which are not counted. -/
theorem size_le_of_reaches_tight :
    let w : Setting := ⟨#['a', 'b'], Flags.empty.insert .fullMatch, fun _ _ ↦ false⟩
    let negated : Node := .noneOf [[.oneOf [[.literal ['x'], .globstar], [.literal ['y']]]]]
    let nodes : List Node := [.oneOf [[.anyText, negated], [.literal ['b']]], .globstar]
    let s : State := ⟨[], 1, none, [⟨.separators [] 2, none, 1⟩, ⟨.span [negated] 0, some 0, 1⟩,
      ⟨.alternatives [[.literal ['b']]] 0, some 0, 1⟩], #[⟨[.globstar], none, none⟩]⟩
    w.Reaches (.initial nodes 0) s ∧
      (s.stack.length ≤ sequenceCount leavesChoice nodes ∧
        s.arena.size ≤ sequenceCount isPlainGroup nodes) ∧
      s.stack.length = sequenceCount leavesChoice nodes ∧
        s.arena.size = sequenceCount isPlainGroup nodes := by
  intro w negated nodes s
  let group : Frame := ⟨.alternatives [[.literal ['b']]] 0, some 0, 1⟩
  let star : Frame := ⟨.span [negated] 0, some 0, 1⟩
  have henter : (State.initial nodes 0).next w =
      .running ⟨[.anyText, negated], 0, some 0, [group], s.arena⟩ := by cbv
  have hstar : State.next ⟨[.anyText, negated], 0, some 0, [group], s.arena⟩ w =
      .running ⟨[negated], 0, some 0, [star, group], s.arena⟩ := by cbv
  have hnegated : State.next ⟨[negated], 0, some 0, [star, group], s.arena⟩ w =
      .running ⟨[], 1, some 0, [star, group], s.arena⟩ := by
    simp [State.next, State.visit, State.exclude, State.goOn, negated, w]
  have hleave : State.next ⟨[], 1, some 0, [star, group], s.arena⟩ w =
      .running ⟨[.globstar], 1, none, [star, group], s.arena⟩ := by cbv
  have hglobstar : State.next ⟨[.globstar], 1, none, [star, group], s.arena⟩ w =
      .running s := by cbv
  have hs : w.Reaches (.initial nodes 0) s :=
    .tail (.tail (.tail (.tail (.single henter) hstar) hnegated) hleave) hglobstar
  exact ⟨hs, size_le_of_reaches hs, by decide, by decide⟩

end PathGlob.Search
