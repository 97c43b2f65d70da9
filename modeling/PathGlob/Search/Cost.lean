import PathGlob.Search.Sound

/-!
# Why a search ends

Every state has a cost, a number of moves that bounds what can still happen, and every move lowers
it. The cost of a sequence depends on what comes behind it, so it takes the cost of that as an
argument. A wildcard may go on at no more places than the path has positions, and each time the
rest is walked anew; a group walks each alternative at most once, and each time all that is behind
the group with it. A frame costs what its open choices cost, walked through the continuation it
remembers.

A cost is far larger than any real search, and nothing ever computes it. What matters is the one
statement at the end, `cost_lt_of_next`: a move from a sound state lowers it.
-/

namespace PathGlob.Search

/-! ## Chains -/

/-- The continuations from an index on, the innermost first. -/
def chain (arena : Array Continuation) : Option Nat → List Continuation
  | none => []
  | some i =>
    match arena[i]? with
    | none => []
    | some k =>
      match k.parent with
      | none => [k]
      | some p => if p < i then k :: chain arena (some p) else [k]
termination_by c => c.elim 0 (· + 1)

@[simp] theorem chain_none (arena : Array Continuation) : chain arena none = [] := by
  rw [chain]

theorem chain_some {arena : Array Continuation} (harena : ArenaSound arena) {i : Nat}
    {k : Continuation} (hk : arena[i]? = some k) :
    chain arena (some i) = k :: chain arena k.parent := by
  rw [chain, hk]
  cases hp : k.parent with
  | none => simp [hp]
  | some p => simp [hp, harena i k p hk hp]

/-- A chain depends only on the entries at its indices, which lie at or below the first one. -/
theorem chain_congr {a b : Array Continuation} {limit : Nat}
    (hab : ∀ i < limit, a[i]? = b[i]?) :
    ∀ c : Option Nat, (∀ i, c = some i → i < limit) → chain a c = chain b c := by
  intro c hc
  cases c with
  | none => simp
  | some i =>
    have hi := hc i rfl
    clear hc
    induction i using Nat.strongRecOn with
    | ind i ih =>
      rw [chain, chain, hab i hi]
      cases b[i]? with
      | none => rfl
      | some k =>
        cases hparent : k.parent with
        | none => simp [hparent]
        | some p =>
          by_cases hp : p < i
          · simp [hparent, hp, ih p hp (Nat.lt_trans hp hi)]
          · simp [hparent, hp]

theorem getElem?_push_below {arena : Array Continuation} (k : Continuation) :
    ∀ i < arena.size, (arena.push k)[i]? = arena[i]? :=
  fun _ hi ↦ Array.getElem?_push_lt hi ▸ (Array.getElem?_eq_getElem hi).symm

theorem chain_push {s : State} (h : s.Sound) {k : Continuation} (hk : k.parent = s.continuation) :
    chain (s.arena.push k) (some s.arena.size) = k :: chain s.arena s.continuation := by
  have hsound : ArenaSound (s.arena.push k) := h.arena.push (hk ▸ h.continuation)
  rw [chain_some hsound Array.getElem?_push_size, hk,
    chain_congr (getElem?_push_below k) _ h.continuation]

/-! ## Costs -/

mutual

/-- The cost of walking a node and then what costs `behind`. -/
def nodeCost (size : Nat) : Node → Nat → Nat
  | .slash, behind => 1 + behind
  | .globstar, behind => 1 + (size + 1) * (1 + behind)
  | .anyChar, behind => 1 + behind
  | .anyText, behind => 1 + (size + 1) * (1 + behind)
  | .literal _, behind => 1 + behind
  | .range _ _, behind => 1 + behind
  | .oneOf alts, behind => 2 + behind + alternativesCost size alts (1 + behind)
  | .noneOf _, behind => 1 + behind

/-- The cost of walking a sequence and then what costs `behind`. -/
def sequenceCost (size : Nat) : List Node → Nat → Nat
  | [], behind => behind
  | node :: rest, behind => nodeCost size node (sequenceCost size rest behind)

/-- The cost of walking each alternative in turn, each with what costs `behind`. -/
def alternativesCost (size : Nat) : List (List Node) → Nat → Nat
  | [], _ => 0
  | alt :: alts, behind => 1 + sequenceCost size alt behind + alternativesCost size alts behind

end

/-- The cost of leaving a group and all groups around it. -/
def chainCost (size : Nat) : List Continuation → Nat
  | [] => 0
  | k :: ks => 1 + sequenceCost size k.rest (chainCost size ks)

/-- The cost of all ways that a choice leaves open. -/
def choiceCost (size : Nat) (behind : Nat) : Choice → Nat
  | .span rest last => 1 + (size - last) * (1 + sequenceCost size rest behind)
  | .separators rest start => 1 + (size - start) * (1 + sequenceCost size rest behind)
  | .alternatives alts _ => 1 + alternativesCost size alts behind

/-- The cost of taking up all choices of a stack. -/
def stackCost (size : Nat) (arena : Array Continuation) : List Frame → Nat
  | [] => 0
  | frame :: stack =>
    choiceCost size (chainCost size (chain arena frame.continuation)) frame.choice +
      stackCost size arena stack

/-- The cost of going on from a state. -/
def State.cost (s : State) (size : Nat) : Nat :=
  sequenceCost size s.nodes (chainCost size (chain s.arena s.continuation)) +
    stackCost size s.arena s.stack

theorem lt_nodeCost (size : Nat) (node : Node) (behind : Nat) :
    behind < nodeCost size node behind := by
  have hmul : 1 + behind ≤ (size + 1) * (1 + behind) := Nat.le_mul_of_pos_left _ (Nat.succ_pos _)
  cases node <;> simp only [nodeCost] <;> omega

theorem sequenceCost_lt_cons (size : Nat) (node : Node) (rest : List Node) (behind : Nat) :
    sequenceCost size rest behind < sequenceCost size (node :: rest) behind := by
  rw [sequenceCost]
  exact lt_nodeCost _ _ _

theorem le_sequenceCost (size : Nat) (nodes : List Node) (behind : Nat) :
    behind ≤ sequenceCost size nodes behind := by
  induction nodes with
  | nil => simp [sequenceCost]
  | cons node rest ih => exact Nat.le_trans ih (Nat.le_of_lt (sequenceCost_lt_cons _ _ _ _))

theorem stackCost_cutBack_le (size : Nat) (arena : Array Continuation) (stack : List Frame)
    (cut : Option Nat) : stackCost size arena (cutBack stack cut) ≤ stackCost size arena stack := by
  have hdrop : ∀ (n : Nat) (stack : List Frame),
      stackCost size arena (stack.drop n) ≤ stackCost size arena stack := by
    intro n
    induction n with
    | zero => intro stack; simp
    | succ n ih =>
      intro stack
      cases stack with
      | nil => simp
      | cons frame stack =>
        rw [List.drop_succ_cons, stackCost]
        exact Nat.le_trans (ih stack) (Nat.le_add_left _ _)
  cases cut with
  | none => exact Nat.le_refl _
  | some height => exact hdrop _ _

theorem stackCost_congr (size : Nat) {limit : Nat} {a b : Array Continuation} {stack : List Frame}
    (hab : ∀ i < limit, a[i]? = b[i]?) (hstack : StackSound limit stack) :
    stackCost size a stack = stackCost size b stack := by
  induction stack generalizing limit with
  | nil => rfl
  | cons frame stack ih =>
    obtain ⟨hsize, hcont, hrest⟩ := hstack
    have hbelow : ∀ i < frame.arenaSize, a[i]? = b[i]? :=
      fun i hi ↦ hab i (Nat.lt_of_lt_of_le hi hsize)
    rw [stackCost, stackCost, chain_congr hbelow _ hcont, ih hbelow hrest]

/-! ## Every move costs -/

/-- A rest that may go on at `n` places costs more than going on at one of them and keeping `m`
others. -/
private theorem add_lt_of_places {m n c : Nat} (h : m < n) :
    c + (1 + m * (1 + c)) < 1 + n * (1 + c) := by
  have hmul : (m + 1) * (1 + c) ≤ n * (1 + c) := Nat.mul_le_mul_right _ h
  rw [Nat.succ_mul] at hmul
  omega

/-- Taking up a choice costs more than walking what it leads to and keeping what it leaves. -/
theorem choiceCost_lt_of_resume {path : Path} {choice choice' : Choice} {nodes : List Node}
    {pos : Nat} (h : choice.resume path = some (nodes, pos, choice')) (behind : Nat) :
    sequenceCost path.size nodes behind + choiceCost path.size behind choice' <
      choiceCost path.size behind choice := by
  cases choice with
  | span rest last =>
    rw [Choice.resume] at h
    split at h
    · next htext =>
      cases h
      have := Path.lt_size_of_hasText htext
      exact add_lt_of_places (by omega)
    · cases h
  | separators rest start =>
    rw [Choice.resume, Option.map_eq_some_iff] at h
    obtain ⟨i, hi, heq⟩ := h
    cases heq
    have := Path.nextSeparator_bounds hi
    exact add_lt_of_places (by omega)
  | alternatives alts pos =>
    cases alts with
    | nil => cases h
    | cons alt alts =>
      cases h
      simp only [choiceCost, alternativesCost]
      omega

theorem cost_lt_of_backtrack {path : Path} {arena : Array Continuation} {stack : List Frame}
    {limit : Nat} {s : State} (hstack : StackSound limit stack)
    (h : backtrack path arena stack = .running s) :
    s.cost path.size < stackCost path.size arena stack := by
  induction stack generalizing limit with
  | nil => cases h
  | cons frame stack ih =>
    obtain ⟨hsize, hcont, hrest⟩ := hstack
    rw [backtrack] at h
    rw [stackCost]
    split at h
    · exact Nat.lt_of_lt_of_le (ih hrest h) (Nat.le_add_left _ _)
    · next nodes pos choice hresume =>
      cases h
      have hbelow := getElem?_shrink_below arena frame.arenaSize
      rw [State.cost, stackCost]
      simp only [chain_congr hbelow _ hcont, stackCost_congr _ hbelow hrest]
      have := choiceCost_lt_of_resume hresume
        (chainCost path.size (chain arena frame.continuation))
      omega

namespace State.Sound

variable {s s' : State} {w : Setting}

theorem cost_lt_of_fail (h : s.Sound) (hs : s.fail w = .running s') :
    s'.cost w.path.size < s.cost w.path.size :=
  Nat.lt_of_lt_of_le (cost_lt_of_backtrack h.stack hs) (Nat.le_add_left _ _)

theorem cost_lt_of_leave (h : s.Sound) (hnodes : s.nodes = []) (hs : s.leave w = .running s') :
    s'.cost w.path.size < s.cost w.path.size := by
  rw [State.leave] at hs
  split at hs
  · split at hs
    · exact h.cost_lt_of_fail hs
    · cases hs
  · next i hi =>
    split at hs
    · cases hs
    · next k hk =>
      cases hs
      have := stackCost_cutBack_le w.path.size s.arena s.stack k.cut
      simp only [cost, hnodes, hi, chain_some h.arena hk, sequenceCost, chainCost]
      omega

theorem cost_lt_of_goOn {nodes : List Node} {pos : Nat} (hs : s.goOn nodes pos = .running s')
    (hcost : ∀ behind, sequenceCost w.path.size nodes behind <
      sequenceCost w.path.size s.nodes behind) :
    s'.cost w.path.size < s.cost w.path.size := by
  cases hs
  exact Nat.add_lt_add_right (hcost _) _

theorem cost_lt_of_goOnWith {choice : Choice} {nodes : List Node} {pos : Nat}
    (hs : s.goOnWith choice nodes pos = .running s')
    (hcost : ∀ behind, sequenceCost w.path.size nodes behind +
      choiceCost w.path.size behind choice < sequenceCost w.path.size s.nodes behind) :
    s'.cost w.path.size < s.cost w.path.size := by
  cases hs
  have := hcost (chainCost w.path.size (chain s.arena s.continuation))
  simp only [cost, stackCost]
  omega

theorem cost_lt_of_enter (h : s.Sound) {rest : List Node} {alts : List (List Node)}
    (hnodes : s.nodes = .oneOf alts :: rest) (hs : s.enter w rest alts = .running s') :
    s'.cost w.path.size < s.cost w.path.size := by
  cases alts with
  | nil => exact h.cost_lt_of_fail hs
  | cons alt alts =>
    simp only [State.enter] at hs
    generalize (if w.flags.has .fullMatch then none else some s.stack.length) = cut at hs
    cases hs
    let k : Continuation := ⟨rest, s.continuation, cut⟩
    have hinside : chain (s.arena.push k) (some s.arena.size) =
        k :: chain s.arena s.continuation := chain_push h rfl
    have hstack := stackCost_congr w.path.size (getElem?_push_below k) h.stack
    simp only [cost, hnodes, sequenceCost, nodeCost, alternativesCost]
    rw [hinside, chainCost]
    split
    · simp only [hstack, k]
      omega
    · simp only [stackCost, choiceCost, hstack, hinside, chainCost, k]
      omega

theorem cost_lt_of_exclude (h : s.Sound) {rest : List Node} {alts : List (List Node)}
    (hnodes : s.nodes = .noneOf alts :: rest) (hs : s.exclude w rest alts = .running s') :
    s'.cost w.path.size < s.cost w.path.size := by
  have hgo : ∀ behind, sequenceCost w.path.size rest behind <
      sequenceCost w.path.size s.nodes behind := by
    rw [hnodes]
    exact sequenceCost_lt_cons _ _ _
  rw [State.exclude] at hs
  split at hs
  · exact h.cost_lt_of_fail hs
  split at hs
  · split at hs
    · cases hs
    · exact cost_lt_of_goOn hs fun behind ↦ Nat.lt_of_le_of_lt (le_sequenceCost _ _ _) (hgo behind)
  split at hs
  · exact cost_lt_of_goOn hs hgo
  · exact h.cost_lt_of_fail hs

theorem cost_lt_of_spread {rest : List Node} (hnodes : s.nodes = .globstar :: rest)
    (hs : s.spread w rest = .running s') : s'.cost w.path.size < s.cost w.path.size := by
  have hkeep : ∀ (start behind : Nat), sequenceCost w.path.size rest behind +
      choiceCost w.path.size behind (.separators rest start) <
        sequenceCost w.path.size s.nodes behind := fun start behind ↦ by
    rw [hnodes, sequenceCost]
    exact add_lt_of_places (by omega)
  rw [State.spread] at hs
  split at hs
  · split at hs
    · refine cost_lt_of_goOn hs ?_
      rw [hnodes]
      exact sequenceCost_lt_cons _ _ _
    · exact cost_lt_of_goOnWith hs (hkeep _)
  · exact cost_lt_of_goOnWith hs (hkeep _)

/-- A move from a sound state lowers the cost. -/
theorem cost_lt_of_next (h : s.Sound) (hs : s.next w = .running s') :
    s'.cost w.path.size < s.cost w.path.size := by
  rw [State.next] at hs
  split at hs
  · next hnodes => exact h.cost_lt_of_leave hnodes hs
  · next node rest hnodes =>
    have hgo : ∀ behind, sequenceCost w.path.size rest behind <
        sequenceCost w.path.size s.nodes behind := by
      rw [hnodes]
      exact sequenceCost_lt_cons _ _ _
    cases node with
    | globstar => exact cost_lt_of_spread hnodes hs
    | oneOf alts => exact h.cost_lt_of_enter hnodes hs
    | noneOf alts => exact h.cost_lt_of_exclude hnodes hs
    | slash | anyChar | literal | range =>
      rw [State.visit] at hs
      split at hs
      · exact cost_lt_of_goOn hs hgo
      · exact h.cost_lt_of_fail hs
    | anyText =>
      rw [State.visit] at hs
      split at hs
      · refine cost_lt_of_goOnWith hs fun behind ↦ ?_
        rw [hnodes, sequenceCost]
        exact add_lt_of_places (by omega)
      · exact cost_lt_of_goOn hs hgo

end State.Sound

end PathGlob.Search
