import PathGlob.Proofs.Search.Reach

/-!
# Where frames and continuations come from

What a state names by a number was made earlier in the search, and the number alone does not say
that it still means the same. Here it is traced back. Every frame of a state was pushed by some move
and has been on the stack ever since, and the part of the arena that it remembers has not changed
since (`Pushed`). Every continuation that the search may still leave through was made when some
group was entered, it is still the one that was made then, and the stack of that moment has been at
the bottom of the stack ever since (`Entered`).

So taking up a choice brings back the whole arena as it was when the choice was left open, and
leaving a group that commits brings back the whole stack as it was when the group was entered.
-/

namespace PathGlob.Search

variable {w : Setting} {first s s' : State} {frame : Frame} {below : List Frame}

/-! ## Frames -/

/-- A frame stands on the part of the stack below it, with whatever choice is left of it, and the
arena is as it was up to the size that the frame remembers. -/
def Frame.Waits (frame : Frame) (below : List Frame) (arena : Array Continuation) (s : State) :
    Prop :=
  (∃ choice, ⟨choice, frame.continuation, frame.arenaSize⟩ :: below <:+ s.stack) ∧
    ∀ i < frame.arenaSize, s.arena[i]? = arena[i]?

/-- How a frame came to the stack: the move that pushed it, and that it has stayed. -/
structure Pushed (w : Setting) (first before after : State) (frame : Frame) (below : List Frame)
    (s : State) : Prop where
  /-- The search came to the state before the push. -/
  reaches : w.Reaches first before
  /-- The push was one move. -/
  push : before.next w = .running after
  /-- It left the stack alone on which the frame stands. -/
  stack_before : before.stack = below
  /-- It put the frame there, perhaps with more of its choice left than now. -/
  stack_after : ∃ choice, after.stack = ⟨choice, frame.continuation, frame.arenaSize⟩ :: below
  /-- The frame remembers the size of the arena. -/
  size_after : after.arena.size = frame.arenaSize
  /-- The frame has been on the stack ever since, and what it remembers of the arena is as it
  was. -/
  since : w.ReachesWithin (frame.Waits below after.arena) after s
  /-- It is so now. -/
  waits : frame.Waits below after.arena s

namespace Pushed

variable {before after : State}

theorem of_push (hs : w.Reaches first s) (hnext : s.next w = .running s')
    (hstack : s'.stack = frame :: s.stack) (hsize : s'.arena.size = frame.arenaSize) :
    Pushed w first s s' frame s.stack s' where
  reaches := hs
  push := hnext
  stack_before := rfl
  stack_after := ⟨frame.choice, hstack⟩
  size_after := hsize
  since := .refl
  waits := ⟨⟨frame.choice, hstack ▸ List.suffix_rfl⟩, fun _ _ ↦ rfl⟩

theorem next (h : Pushed w first before after frame below s) (hnext : s.next w = .running s')
    {choice : Choice} (hstack : ⟨choice, frame.continuation, frame.arenaSize⟩ :: below <:+ s'.stack)
    (harena : ∀ i < frame.arenaSize, s'.arena[i]? = s.arena[i]?) :
    Pushed w first before after ⟨choice, frame.continuation, frame.arenaSize⟩ below s' := by
  have hwaits : frame.Waits below after.arena s' := by
    refine ⟨⟨choice, hstack⟩, ?_⟩
    intro i hi
    rw [harena i hi, h.waits.2 i hi]
  exact ⟨h.reaches, h.push, h.stack_before, h.stack_after, h.size_after,
    h.since.tail ⟨hnext, hwaits⟩, hwaits⟩

theorem arena_eq (h : Pushed w first before after frame below s) :
    s.arena.shrink frame.arenaSize = after.arena := by
  apply Array.ext_getElem?
  intro i
  rw [getElem?_shrink]
  split
  · next hi => exact h.waits.2 i hi
  · next hi =>
    have hle : after.arena.size ≤ i := by
      rw [h.size_after]
      exact Nat.le_of_not_lt hi
    exact (Array.getElem?_eq_none hle).symm

end Pushed

/-- Every frame of a state came to the stack by a push. -/
def FramesPushed (w : Setting) (first s : State) : Prop :=
  ∀ frame below, frame :: below <:+ s.stack →
    ∃ before after, Pushed w first before after frame below s

theorem StackSound.of_suffix {limit : Nat} {stack : List Frame}
    (h : StackSound limit stack) (hframe : frame :: below <:+ stack) :
    frame.arenaSize ≤ limit ∧ (∀ i, frame.continuation = some i → i < frame.arenaSize) ∧
      StackSound frame.arenaSize below := by
  obtain ⟨above, rfl⟩ := hframe
  exact h.of_append

/-- **What a move does to the frames.** A frame behind a move was on the stack before it, perhaps
with more of its choice left, and what it remembers of the arena is as it was; or the move has just
pushed it on the stack that it found. -/
theorem Move.frames (hm : Move w s s') (hsound : s.Sound) (hframe : frame :: below <:+ s'.stack) :
    (∃ choice, ⟨choice, frame.continuation, frame.arenaSize⟩ :: below <:+ s.stack ∧
        ∀ i < frame.arenaSize, s'.arena[i]? = s.arena[i]?) ∨
      below = s.stack ∧ s'.stack = frame :: s.stack ∧ s'.arena.size = frame.arenaSize ∧
        s'.continuation = frame.continuation := by
  cases hm with
  | @resume exhausted stack top nodes pos choice hstack hexhausted hresume =>
    left
    have htop : top :: stack <:+ s.stack := hstack ▸ List.suffix_append _ _
    obtain ⟨-, -, hbelow⟩ := hsound.stack.of_suffix htop
    rcases List.suffix_cons_iff.mp hframe with heq | hmem
    · -- the frame that is taken up stays where it is, with less of its choice left
      cases heq
      exact ⟨top.choice, htop, getElem?_shrink_below _ _⟩
    · refine ⟨frame.choice, hmem.trans ((List.suffix_cons _ _).trans htop), ?_⟩
      intro i hi
      have hlt : i < top.arenaSize := Nat.lt_of_lt_of_le hi (hbelow.of_suffix hmem).1
      exact getElem?_shrink_below _ _ i hlt
  | leave hnodes hi hk =>
    -- a cut takes frames from the top, so what is left stands where it stood
    exact .inl ⟨frame.choice, hframe.trans (cutBack_suffix _ _), fun _ _ ↦ rfl⟩
  | goOn hnodes => exact .inl ⟨frame.choice, hframe, fun _ _ ↦ rfl⟩
  | goOnWith hnodes hchoice =>
    rcases List.suffix_cons_iff.mp hframe with heq | hmem
    · cases heq
      exact .inr ⟨rfl, rfl, rfl, rfl⟩
    · exact .inl ⟨frame.choice, hmem, fun _ _ ↦ rfl⟩
  | @enter alt rest alts hnodes =>
    have hkept : frame :: below <:+ s.stack → ∀ k : Continuation, ∀ i < frame.arenaSize,
        (s.arena.push k)[i]? = s.arena[i]? := by
      intro hmem k i hi
      have hsize : frame.arenaSize ≤ s.arena.size := (hsound.stack.of_suffix hmem).1
      exact getElem?_push_below k i (Nat.lt_of_lt_of_le hi hsize)
    cases alts with
    | nil => exact .inl ⟨frame.choice, hframe, hkept hframe _⟩
    | cons alt' alts =>
      rcases List.suffix_cons_iff.mp hframe with heq | hmem
      · cases heq
        exact .inr ⟨rfl, rfl, Array.size_push _, rfl⟩
      · exact .inl ⟨frame.choice, hmem, hkept hmem _⟩

theorem FramesPushed.next (h : FramesPushed w first s) (hs : w.Reaches first s) (hsound : s.Sound)
    (hnext : s.next w = .running s') : FramesPushed w first s' := by
  intro frame below hframe
  rcases (move_of_next hnext).frames hsound hframe with
    ⟨choice, hold, harena⟩ | ⟨rfl, hstack, hsize, -⟩
  · obtain ⟨before, after, hpushed⟩ := h _ below hold
    exact ⟨before, after, hpushed.next hnext hframe harena⟩
  · exact ⟨s, s', .of_push hs hnext hstack hsize⟩

/-! ## Continuations -/

/-- A continuation lies on the chain that starts somewhere. -/
inductive OnChain (arena : Array Continuation) (i : Nat) : Option Nat → Prop
  /-- The chain starts with it. -/
  | here : OnChain arena i (some i)
  /-- It lies on the chain of the parent. -/
  | outside {j : Nat} {k : Continuation} (hk : arena[j]? = some k)
    (h : OnChain arena i k.parent) : OnChain arena i (some j)

namespace OnChain

variable {arena arena' : Array Continuation} {i : Nat} {c : Option Nat}

theorem lt (harena : ArenaSound arena) {limit : Nat} (h : OnChain arena i c)
    (hc : ∀ j, c = some j → j < limit) : i < limit := by
  induction h generalizing limit with
  | here => exact hc i rfl
  | @outside j k hk _ ih =>
    have hj : j < limit := hc j rfl
    exact ih fun p hp ↦ Nat.lt_trans (harena j k p hk hp) hj

theorem congr (harena : ArenaSound arena) {limit : Nat}
    (hsame : ∀ i < limit, arena[i]? = arena'[i]?) (h : OnChain arena i c)
    (hc : ∀ j, c = some j → j < limit) : OnChain arena' i c := by
  induction h with
  | here => exact .here
  | @outside j k hk _ ih =>
    have hj : j < limit := hc j rfl
    exact .outside (hsame j hj ▸ hk) (ih fun p hp ↦ Nat.lt_trans (harena j k p hk hp) hj)

theorem mem_chain (harena : ArenaSound arena) {k : Continuation} (h : OnChain arena i c)
    (hk : arena[i]? = some k) : k ∈ chain arena c := by
  induction h with
  | here =>
    rw [chain_some harena hk]
    exact List.mem_cons_self
  | outside hj _ ih =>
    rw [chain_some harena hj]
    exact List.mem_cons_of_mem _ ih

end OnChain

/-- The continuation that a state makes when it enters a group. -/
def State.entry (s : State) (w : Setting) (rest : List Node) : Continuation :=
  ⟨rest, s.continuation, if w.flags.has .fullMatch then none else some s.stack.length⟩

/-- How a continuation came to the arena: the group that was entered, and that the stack of that
moment has stayed. -/
structure Entered (w : Setting) (first before after : State) (rest : List Node) (i : Nat)
    (s : State) : Prop where
  /-- The search came to the state before the group. -/
  reaches : w.Reaches first before
  /-- There a group was the next node, with `rest` behind it. -/
  group : ∃ alt alts, before.nodes = .oneOf (alt :: alts) :: rest
  /-- It was entered by one move. -/
  enter : before.next w = .running after
  /-- Its continuation is named by the size that the arena had. -/
  size_before : before.arena.size = i
  /-- Ever since, the continuation has been in the arena, and the stack on which the group was
  entered has been at the bottom of the stack. -/
  since : w.ReachesWithin (fun t ↦ i < t.arena.size ∧ before.stack <:+ t.stack) after s
  /-- The continuation is the one that was made for the group. -/
  kept : s.arena[i]? = some (before.entry w rest)

theorem Entered.next {before after : State} {rest : List Node} {i : Nat}
    (h : Entered w first before after rest i s) (hnext : s.next w = .running s')
    (hstack : before.stack <:+ s'.stack) (harena : s'.arena[i]? = s.arena[i]?) :
    Entered w first before after rest i s' := by
  have hkept : s'.arena[i]? = some (before.entry w rest) := harena.trans h.kept
  have hi : i < s'.arena.size := (Array.getElem?_eq_some_iff.mp hkept).1
  exact ⟨h.reaches, h.group, h.enter, h.size_before, h.since.tail ⟨hnext, hi, hstack⟩, hkept⟩

/-- Every continuation of a chain came from entering a group, on a stack that is a lower part of the
given one. -/
def ChainEntered (w : Setting) (first s : State) (c : Option Nat) (stack : List Frame) : Prop :=
  ∀ i, OnChain s.arena i c →
    ∃ before after rest, Entered w first before after rest i s ∧ before.stack <:+ stack

/-- Every continuation that a state may leave through came from entering a group. -/
structure GroupsEntered (w : Setting) (first s : State) : Prop where
  /-- Those behind the nodes still to be walked were made on lower parts of the stack. -/
  chain : ChainEntered w first s s.continuation s.stack
  /-- Those behind a frame were made on lower parts of the stack below it. -/
  stack : ∀ frame below, frame :: below <:+ s.stack →
    ChainEntered w first s frame.continuation below

theorem ChainEntered.mono {c : Option Nat} {stack stack' : List Frame}
    (h : ChainEntered w first s c stack) (hstack : stack <:+ stack') :
    ChainEntered w first s c stack' := by
  intro i hi
  obtain ⟨before, after, rest, hentered, hsuffix⟩ := h i hi
  exact ⟨before, after, rest, hentered, hsuffix.trans hstack⟩

/-- A chain that a move leaves alone still comes from entering groups, if the part of the stack on
which they were entered stays. -/
theorem ChainEntered.next {c : Option Nat} {stack : List Frame} {limit : Nat}
    (h : ChainEntered w first s c stack) (hsound : s'.Sound) (hnext : s.next w = .running s')
    (hc : ∀ j, c = some j → j < limit) (harena : ∀ i < limit, s'.arena[i]? = s.arena[i]?)
    (hstack : stack <:+ s'.stack) : ChainEntered w first s' c stack := by
  intro i hi
  obtain ⟨before, after, rest, hentered, hsuffix⟩ := h i (hi.congr hsound.arena harena hc)
  have hlt : i < limit := hi.lt hsound.arena hc
  exact ⟨before, after, rest, hentered.next hnext (hsuffix.trans hstack) (harena i hlt), hsuffix⟩

/-- Leaving a group cuts the stack back to the one on which it was entered, unless nothing is cut at
all. -/
theorem cutBack_entry {before : State} {rest : List Node} {stack : List Frame}
    (h : before.stack <:+ stack) : cutBack stack (before.entry w rest).cut =
      if w.flags.has .fullMatch then stack else before.stack := by
  rw [State.entry]
  split
  · rfl
  · exact (List.suffix_iff_eq_drop.mp h).symm

/-- Behind a group that is left there are continuations that were made before its own, on what
leaving it leaves of the stack. -/
theorem GroupsEntered.leave (h : GroupsEntered w first s) (hsound : s.Sound)
    (hfit : s.CutsFit (w.flags.has .fullMatch)) {i : Nat} {k : Continuation}
    (hi : s.continuation = some i) (hk : s.arena[i]? = some k) :
    ChainEntered w first s k.parent (cutBack s.stack k.cut) := by
  have hchain := h.chain
  have hcuts := hfit.chain
  rw [hi] at hchain hcuts
  rw [chain_some hsound.arena hk] at hcuts
  obtain ⟨before, after, rest, hentered, hsuffix⟩ := hchain i .here
  obtain rfl : before.entry w rest = k := Option.some.inj (hentered.kept.symm.trans hk)
  rw [cutBack_entry hsuffix]
  intro j hj
  obtain ⟨before', after', rest', hentered', hsuffix'⟩ := hchain j (.outside hk hj)
  refine ⟨before', after', rest', hentered', ?_⟩
  split
  · exact hsuffix'
  · next hcommits =>
    -- both stacks are lower parts of the stack at hand, and cuts do not grow to the outside
    have hle := hcuts.2.2.cut_le _ (hj.mem_chain hsound.arena hentered'.kept) before'.stack.length
      (if_neg hcommits)
    have hcut : (before.entry w rest).cut = some before.stack.length := if_neg hcommits
    rw [hcut, Option.getD_some] at hle
    exact List.suffix_of_suffix_length_le hsuffix' hsuffix hle

theorem GroupsEntered.enter (h : GroupsEntered w first s) (hs : w.Reaches first s)
    (hsound : s.Sound) (hsound' : s'.Sound) (hnext : s.next w = .running s')
    {alt rest : List Node} {alts : List (List Node)}
    (hnodes : s.nodes = .oneOf (alt :: alts) :: rest) (hstack : s.stack <:+ s'.stack)
    (harena : s'.arena = s.arena.push (s.entry w rest)) :
    ChainEntered w first s' (some s.arena.size) s.stack := by
  have hnew : s'.arena[s.arena.size]? = some (s.entry w rest) := by
    rw [harena, Array.getElem?_push_size]
  have hold : ChainEntered w first s' s.continuation s.stack := by
    apply h.chain.next hsound' hnext hsound.continuation _ hstack
    rw [harena]
    exact getElem?_push_below _
  intro i hi
  -- the chain is the new continuation and then the chain that the state had before
  cases hi with
  | here => exact ⟨s, s', rest, ⟨hs, ⟨alt, alts, hnodes⟩, hnext, rfl, .refl, hnew⟩, List.suffix_rfl⟩
  | outside hk hi =>
    rw [hnew] at hk
    cases hk
    exact hold i hi

theorem GroupsEntered.chain_next (h : GroupsEntered w first s) (hs : w.Reaches first s)
    (hsound : s.Sound) (hfit : s.CutsFit (w.flags.has .fullMatch))
    (hnext : s.next w = .running s') : ∃ lower, ChainEntered w first s' s'.continuation lower ∧
      lower <:+ s.stack ∧ lower <:+ s'.stack := by
  have hsound' : s'.Sound := hsound.next hnext
  cases move_of_next hnext with
  | @resume exhausted stack top nodes pos choice hstack hexhausted hresume =>
    have htop : top :: stack <:+ s.stack := hstack ▸ List.suffix_append _ _
    have hkept := getElem?_shrink_below s.arena top.arenaSize
    have hcont := (hsound.stack.of_suffix htop).2.1
    exact ⟨stack, (h.stack top stack htop).next hsound' hnext hcont hkept (List.suffix_cons _ _),
      (List.suffix_cons _ _).trans htop, List.suffix_cons _ _⟩
  | @leave i k hnodes hi hk =>
    -- the chain of the parent, on what the cut leaves of the stack
    have hparent : ∀ p, k.parent = some p → p < s.arena.size := hsound'.continuation
    have hchain := h.leave hsound hfit hi hk
    exact ⟨cutBack s.stack k.cut,
      hchain.next hsound' hnext hparent (fun _ _ ↦ rfl) List.suffix_rfl,
      cutBack_suffix _ _, List.suffix_rfl⟩
  | goOn hnodes =>
    exact ⟨s.stack,
      h.chain.next hsound' hnext hsound.continuation (fun _ _ ↦ rfl) List.suffix_rfl,
      List.suffix_rfl, List.suffix_rfl⟩
  | goOnWith hnodes hchoice =>
    exact ⟨s.stack,
      h.chain.next hsound' hnext hsound.continuation (fun _ _ ↦ rfl) (List.suffix_cons _ _),
      List.suffix_rfl, List.suffix_cons _ _⟩
  | @enter alt rest alts hnodes =>
    have hstack : s.stack <:+ if alts.isEmpty then s.stack
        else ⟨.alternatives alts s.pos, some s.arena.size, s.arena.size + 1⟩ :: s.stack := by
      split
      · exact List.suffix_rfl
      · exact List.suffix_cons _ _
    exact ⟨s.stack, h.enter hs hsound hsound' hnext hnodes hstack rfl, List.suffix_rfl, hstack⟩

theorem GroupsEntered.next (h : GroupsEntered w first s) (hs : w.Reaches first s)
    (hsound : s.Sound) (hfit : s.CutsFit (w.flags.has .fullMatch))
    (hnext : s.next w = .running s') : GroupsEntered w first s' := by
  obtain ⟨lower, hchain, hold, hnew⟩ := h.chain_next hs hsound hfit hnext
  refine ⟨hchain.mono hnew, ?_⟩
  intro frame below hframe
  rcases (move_of_next hnext).frames hsound hframe with
    ⟨choice, hwaits, harena⟩ | ⟨rfl, -, -, hcont⟩
  · have hcont := (hsound.stack.of_suffix hwaits).2.1
    have hbelow : below <:+ s'.stack := (List.suffix_cons _ _).trans hframe
    exact (h.stack _ below hwaits).next (hsound.next hnext) hnext hcont harena hbelow
  · -- a frame that was just pushed remembers the continuation of the state behind the push
    rw [← hcont]
    exact hchain.mono hold

/-! ## Runs -/

theorem framesPushed_initial (nodes : List Node) (pos : Nat) :
    FramesPushed w first (.initial nodes pos) := by
  intro frame below hframe
  exact absurd (List.suffix_nil.mp hframe) (List.cons_ne_nil _ _)

theorem groupsEntered_initial (nodes : List Node) (pos : Nat) :
    GroupsEntered w first (.initial nodes pos) where
  chain i hi := by cases hi
  stack frame below hframe := absurd (List.suffix_nil.mp hframe) (List.cons_ne_nil _ _)

theorem groupsEntered_of_reaches {nodes : List Node} {start : Nat}
    (hs : w.Reaches (.initial nodes start) s) : GroupsEntered w (.initial nodes start) s := by
  have hinitial : (State.initial nodes start).Sound := sound_initial nodes start
  induction hs with
  | refl => exact groupsEntered_initial nodes start
  | tail ht hnext ih =>
    have hcuts := Setting.Reaches.cutsFit ht hinitial (cutsFit_initial nodes start)
    exact ih.next ht (Setting.Reaches.sound ht hinitial) hcuts hnext

/-- What the numbers of a state stand for, in a search that began with `first`. -/
structure Traced (w : Setting) (first s : State) : Prop where
  /-- They fit each other. -/
  consistent : s.Consistent w.path
  /-- The next move finds the continuation that it looks for. -/
  next_ne_dangling : s.next w ≠ .dangling
  /-- Every frame has stayed on the stack since it was pushed, and so has what it remembers of the
  arena. -/
  frames : FramesPushed w first s
  /-- A dead end takes up a frame of the stack, and with it the arena of the time when that frame
  was pushed. -/
  resume : ∀ s', s.fail w = .running s' → ∃ frame below before after, frame :: below <:+ s.stack ∧
    Pushed w first before after frame below s ∧ s'.continuation = frame.continuation ∧
      s'.stack.tail = below ∧ s'.arena = after.arena
  /-- The end of an alternative is left for what comes behind its group. Unless the whole path has
  to be matched, that leaves the stack on which the group was entered, whose frames are still those
  of that time, and cuts away what was pushed since. -/
  leave : ∀ i, s.nodes = [] → s.continuation = some i → ∃ before after rest,
    Entered w first before after rest i s ∧ before.stack <:+ s.stack ∧
      s.next w = .running ⟨rest, s.pos, before.continuation,
        if w.flags.has .fullMatch then s.stack else before.stack, s.arena⟩

theorem FramesPushed.resume (h : FramesPushed w first s) (hs : s.fail w = .running s') :
    ∃ frame below before after, frame :: below <:+ s.stack ∧
      Pushed w first before after frame below s ∧ s'.continuation = frame.continuation ∧
        s'.stack.tail = below ∧ s'.arena = after.arena := by
  obtain ⟨exhausted, below, frame, nodes, pos, choice, hstack, -, -, rfl⟩ := exists_of_backtrack hs
  have hframe : frame :: below <:+ s.stack := hstack ▸ List.suffix_append _ _
  obtain ⟨before, after, hpushed⟩ := h frame below hframe
  exact ⟨frame, below, before, after, hframe, hpushed, rfl, rfl, hpushed.arena_eq⟩

theorem GroupsEntered.next_eq (h : GroupsEntered w first s) {i : Nat} (hnodes : s.nodes = [])
    (hi : s.continuation = some i) : ∃ before after rest,
      Entered w first before after rest i s ∧ before.stack <:+ s.stack ∧
        s.next w = .running ⟨rest, s.pos, before.continuation,
          if w.flags.has .fullMatch then s.stack else before.stack, s.arena⟩ := by
  obtain ⟨before, after, rest, hentered, hsuffix⟩ := h.chain i (hi ▸ .here)
  refine ⟨before, after, rest, hentered, hsuffix, ?_⟩
  rw [State.next, hnodes]
  simp only [State.leave, hi, hentered.kept, cutBack_entry hsuffix]
  rfl

/-- **The numbers of a search mean what they were made for.** In every state that a search reaches,
from whatever nodes and whatever place in the path, the indices, sizes, cuts and positions fit each
other, no continuation is looked for in vain, what a pending choice remembers of the arena is as it
was when the choice was left open, and leaving a group cuts away what was pushed since the group was
entered, no more and no less. A negated group looks ahead from the position of such a state, so the
same is true of the searches that it starts. -/
theorem traced_of_reaches {nodes : List Node} {start : Nat} (hstart : start ≤ w.path.size)
    (hs : w.Reaches (.initial nodes start) s) : Traced w (.initial nodes start) s := by
  have hinitial : (State.initial nodes start).Sound := sound_initial nodes start
  have hsound : s.Sound := hs.sound hinitial
  have hcuts := hs.cutsFit hinitial (cutsFit_initial nodes start)
  -- where things come from is carried along the run together with soundness and the cuts
  obtain ⟨hframes, hgroups⟩ : FramesPushed w (.initial nodes start) s ∧
      GroupsEntered w (.initial nodes start) s := by
    induction hs with
    | refl => exact ⟨framesPushed_initial nodes start, groupsEntered_initial nodes start⟩
    | @tail t u ht hnext ih =>
      have htsound : t.Sound := Setting.Reaches.sound ht hinitial
      have htcuts := Setting.Reaches.cutsFit ht hinitial (cutsFit_initial nodes start)
      obtain ⟨hframes, hgroups⟩ := ih htsound htcuts
      exact ⟨hframes.next ht htsound hnext, hgroups.next ht htsound htcuts hnext⟩
  exact {
    consistent := .of_invariants hsound (hs.inPath (inPath_initial hstart nodes)) hcuts
    next_ne_dangling := hsound.next_ne_dangling
    frames := hframes
    resume := fun _ hfail ↦ hframes.resume hfail
    leave := fun _ hnodes hi ↦ hgroups.next_eq hnodes hi }

/-- In `{{*,b}c,d}` at `abc`, the walk of the inner group's first alternative is at its end. Two
continuations are behind it, and leaving it drops the two frames that were pushed since the inner
group was entered. -/
theorem traced_of_reaches_nested :
    let w : Setting := ⟨#['a', 'b', 'c'], Flags.empty, fun _ _ ↦ false⟩
    let nodes : List Node := [.oneOf [[.oneOf [[.anyText], [.literal ['b']]], .literal ['c']],
      [.literal ['d']]]]
    let s : State := ⟨[], 0, some 1, [⟨.span [] 0, some 1, 2⟩,
      ⟨.alternatives [[.literal ['b']]] 0, some 1, 2⟩,
      ⟨.alternatives [[.literal ['d']]] 0, some 0, 1⟩],
      #[⟨[], none, some 0⟩, ⟨[.literal ['c']], some 0, some 1⟩]⟩
    0 ≤ w.path.size ∧ w.Reaches (.initial nodes 0) s ∧ Traced w (.initial nodes 0) s := by
  intro w nodes s
  let outer : State := ⟨[.oneOf [[.anyText], [.literal ['b']]], .literal ['c']], 0, some 0,
    [⟨.alternatives [[.literal ['d']]] 0, some 0, 1⟩], #[⟨[], none, some 0⟩]⟩
  let inner : State := ⟨[.anyText], 0, some 1, [⟨.alternatives [[.literal ['b']]] 0, some 1, 2⟩,
    ⟨.alternatives [[.literal ['d']]] 0, some 0, 1⟩], s.arena⟩
  have houter : (State.initial nodes 0).next w = .running outer := by cbv
  have hinner : outer.next w = .running inner := by cbv
  have hstar : inner.next w = .running s := by cbv
  have hs : w.Reaches (.initial nodes 0) s := .tail (.tail (.tail .refl houter) hinner) hstar
  exact ⟨Nat.zero_le _, hs, traced_of_reaches (Nat.zero_le _) hs⟩

end PathGlob.Search
