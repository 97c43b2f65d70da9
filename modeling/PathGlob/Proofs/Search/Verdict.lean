import PathGlob.Proofs.Search.Cuts
import PathGlob.Proofs.Search.Nodes
import PathGlob.Proofs.Search.Places

/-!
# The verdict of a state

A state stands for ends that are still to come: those of the nodes at hand, led through the groups
that the search is inside of, and behind them those of each choice of the stack. `verdict` decides
from these lists alone whether the search will accept. It knows nothing of moves, and the rule for
leaving a group is the only place where it looks at a cut: a group that commits lets the first end
pass, and with it go the choices that were made inside.

The main step is that a move does not change the verdict (`verdict_next`). What makes it true is
`verdict_append`: leaving a part of the ends to a new choice of the stack changes nothing, because
the cuts fit the stack. Where the search would come upon the same ends with a choice on the stack as
without it, the cut takes the choice away before anyone could tell.

The double star under `legacyGlobstar` is listed with its last separator twice, and the search tries
it once; `verdict_append_of_subset` says that repeated ends do not matter if they come last.
-/

namespace PathGlob.Search

variable {w : Setting} {arena : Array Continuation}

/-! ## Ends that are still to come -/

/-- The ends of walking a sequence from a position. -/
abbrev Setting.ends (w : Setting) (nodes : List Node) (pos : Nat) : List End :=
  sequenceEnds w.path w.flags nodes pos

/-- The ends of all ways that a choice leaves open, in the order in which they are taken up. -/
def Choice.ends (w : Setting) : Choice → List End
  | .span rest last =>
    if w.path.hasText last then (w.path.segmentRest (last + 1)).flatMap (w.ends rest) else []
  | .separators rest start => (w.path.separatorsFrom start).flatMap (w.ends rest)
  | .alternatives alts pos => alts.flatMap (w.ends · pos)

/-- The ends behind a group, from those of the walks inside it. A group that commits lets only the
first of them pass. -/
def Continuation.ends (w : Setting) (k : Continuation) (es : List End) : List End :=
  (if k.cut.isSome then es.take 1 else es).flatMap fun e ↦ w.ends k.rest e.pos

theorem Continuation.ends_nil (k : Continuation) : k.ends w [] = [] := by
  rw [Continuation.ends, List.take_nil, ite_self, List.flatMap_nil]

/-- The ends behind all groups of a chain. -/
def endsBehind (w : Setting) (ks : List Continuation) (es : List End) : List End :=
  ks.foldl (fun es k ↦ k.ends w es) es

/-- Whether a search accepts that comes upon some ends inside a chain of groups and then takes up
the choices of a stack. -/
def verdict (w : Setting) (arena : Array Continuation) :
    List End → List Continuation → List Frame → Bool
  | [], _, [] => false
  | [], _, frame :: stack =>
    verdict w arena (frame.choice.ends w) (chain arena frame.continuation) stack
  | e :: es, [], stack =>
    (e :: es).any (End.isMatch w.path w.flags) || verdict w arena [] [] stack
  | e :: es, k :: ks, stack => verdict w arena (k.ends w (e :: es)) ks (cutBack stack k.cut)
termination_by es ks stack => (stack.length, ks.length, es.length)
decreasing_by
  · exact Prod.Lex.left _ _ (Nat.lt_succ_self _)
  · exact Prod.Lex.right _ (Prod.Lex.right _ (Nat.succ_pos _))
  · have hle : (cutBack stack k.cut).length ≤ stack.length := by
      cases k.cut <;> simp [cutBack]
    rcases Nat.lt_or_eq_of_le hle with hlt | heq
    · exact Prod.Lex.left _ _ hlt
    · rw [heq]
      exact Prod.Lex.right _ (Prod.Lex.left _ _ (Nat.lt_succ_self _))

theorem verdict_nil (ks : List Continuation) (stack : List Frame) :
    verdict w arena [] ks stack = verdict w arena [] [] stack := by
  cases stack with
  | nil => rw [verdict, verdict]
  | cons frame stack => rw [verdict, verdict]

theorem verdict_nil_cons (ks : List Continuation) (frame : Frame) (stack : List Frame) :
    verdict w arena [] ks (frame :: stack) =
      verdict w arena (frame.choice.ends w) (chain arena frame.continuation) stack := by
  rw [verdict]

theorem verdict_top (es : List End) (stack : List Frame) :
    verdict w arena es [] stack =
      (es.any (End.isMatch w.path w.flags) || verdict w arena [] [] stack) := by
  cases es with
  | nil => rw [List.any_nil, Bool.false_or]
  | cons e es => rw [verdict]

theorem verdict_cons {es : List End} (hne : es ≠ []) (k : Continuation) (ks : List Continuation)
    (stack : List Frame) :
    verdict w arena es (k :: ks) stack =
      verdict w arena (k.ends w es) ks (cutBack stack k.cut) := by
  cases es with
  | nil => exact absurd rfl hne
  | cons e es => rw [verdict]

theorem verdict_cons_of_cutBack_eq {k : Continuation} {stack : List Frame}
    (hcut : cutBack stack k.cut = stack) (es : List End) (ks : List Continuation) :
    verdict w arena es (k :: ks) stack = verdict w arena (k.ends w es) ks stack := by
  by_cases hne : es = []
  · rw [hne, k.ends_nil, verdict_nil (k :: ks), verdict_nil ks]
  · rw [verdict_cons hne, hcut]

/-! ## Chains without cuts -/

theorem Continuation.ends_of_cut_eq_none {k : Continuation} (hk : k.cut = none) (es : List End) :
    k.ends w es = es.flatMap fun e ↦ w.ends k.rest e.pos := by
  rw [Continuation.ends, hk, Option.isSome_none, if_neg Bool.false_ne_true]

theorem endsBehind_nil (ks : List Continuation) : endsBehind w ks [] = [] := by
  induction ks with
  | nil => rfl
  | cons k ks ih => rwa [endsBehind, List.foldl_cons, Continuation.ends_nil]

theorem endsBehind_append {ks : List Continuation} (hks : ∀ k ∈ ks, k.cut = none)
    (es es' : List End) :
    endsBehind w ks (es ++ es') = endsBehind w ks es ++ endsBehind w ks es' := by
  induction ks generalizing es es' with
  | nil => rfl
  | cons k ks ih =>
    have hk := hks k List.mem_cons_self
    simp only [endsBehind, List.foldl_cons, Continuation.ends_of_cut_eq_none hk,
      List.flatMap_append]
    exact ih (fun k' hk' ↦ hks k' (List.mem_cons_of_mem _ hk')) _ _

theorem endsBehind_subset {ks : List Continuation} (hks : ∀ k ∈ ks, k.cut = none)
    {es es' : List End} (hsub : es' ⊆ es) : endsBehind w ks es' ⊆ endsBehind w ks es := by
  induction ks generalizing es es' with
  | nil => exact hsub
  | cons k ks ih =>
    have hk := hks k List.mem_cons_self
    simp only [endsBehind, List.foldl_cons, Continuation.ends_of_cut_eq_none hk]
    refine ih (fun k' hk' ↦ hks k' (List.mem_cons_of_mem _ hk')) ?_
    intro e he
    obtain ⟨e', he', hmem⟩ := List.mem_flatMap.mp he
    exact List.mem_flatMap.mpr ⟨e', hsub he', hmem⟩

/-- Without cuts all ends of a walk are led to top level, and the stack stays as it is. -/
theorem verdict_of_cut_eq_none {ks : List Continuation} (hks : ∀ k ∈ ks, k.cut = none)
    (es : List End) (stack : List Frame) :
    verdict w arena es ks stack =
      ((endsBehind w ks es).any (End.isMatch w.path w.flags) || verdict w arena [] [] stack) := by
  induction ks generalizing es with
  | nil => exact verdict_top es stack
  | cons k ks ih =>
    cases es with
    | nil => rw [verdict_nil, endsBehind_nil, List.any_nil, Bool.false_or]
    | cons e es =>
      rw [verdict, hks k List.mem_cons_self, cutBack,
        ih fun k' hk' ↦ hks k' (List.mem_cons_of_mem _ hk'), endsBehind, endsBehind,
        List.foldl_cons]

/-- Either a chain has no cuts at all, or leaving the innermost group cuts the stack back. -/
theorem CutsFit.cases {whole : Bool} {height : Nat} {ks : List Continuation}
    (h : CutsFit whole height ks) :
    (∀ k ∈ ks, k.cut = none) ∨
      ∃ k ks' cut, ks = k :: ks' ∧ k.cut = some cut ∧ cut ≤ height := by
  cases ks with
  | nil => exact .inl (by simp)
  | cons k ks =>
    cases hk : k.cut with
    | some cut => exact .inr ⟨k, ks, cut, rfl, hk, h.2.1 cut hk⟩
    | none =>
      -- one missing cut says that the search has to match the whole path, and then all are missing
      left
      have hwhole : whole = true := by rw [← h.1, hk, Option.isNone_none]
      subst hwhole
      exact h.cut_eq_none

/-! ## Choices on the stack -/

/-- Ends may be left to a choice on the stack: the search comes upon them once those before them
have failed. -/
theorem verdict_append {whole : Bool} {stack : List Frame} (frame : Frame)
    (h : CutsFit whole stack.length (chain arena frame.continuation)) (es : List End) :
    verdict w arena (es ++ frame.choice.ends w) (chain arena frame.continuation) stack =
      verdict w arena es (chain arena frame.continuation) (frame :: stack) := by
  cases es with
  | nil => rw [List.nil_append, verdict_nil_cons]
  | cons e es =>
    rcases h.cases with hnone | ⟨k, ks, cut, hks, hcut, hle⟩
    · rw [verdict_of_cut_eq_none hnone, verdict_of_cut_eq_none hnone, verdict_nil_cons,
        verdict_of_cut_eq_none hnone, endsBehind_append hnone, List.any_append, Bool.or_assoc]
    · -- the first end commits the group, and the cut takes the choice with it
      have hends : k.ends w (e :: es ++ frame.choice.ends w) = k.ends w (e :: es) := by
        simp [Continuation.ends, hcut]
      rw [hks, verdict_cons (by simp), verdict_cons (by simp), hends, hcut, cutBack_cons hle]

theorem verdict_append_of_subset {whole : Bool} {ks : List Continuation} {stack : List Frame}
    (h : CutsFit whole stack.length ks) {es es' : List End} (hsub : es' ⊆ es) :
    verdict w arena (es ++ es') ks stack = verdict w arena es ks stack := by
  cases es with
  | nil => rw [List.eq_nil_of_subset_nil hsub, List.append_nil]
  | cons e es =>
    rcases h.cases with hnone | ⟨k, ks, cut, rfl, hcut, -⟩
    · have hany : (endsBehind w ks es').any (End.isMatch w.path w.flags) = true →
          (endsBehind w ks (e :: es)).any (End.isMatch w.path w.flags) = true := by
        intro hmatch
        obtain ⟨e', he', hmatch⟩ := List.any_eq_true.mp hmatch
        exact List.any_eq_true.mpr ⟨e', endsBehind_subset hnone hsub he', hmatch⟩
      rw [verdict_of_cut_eq_none hnone, verdict_of_cut_eq_none hnone, endsBehind_append hnone,
        List.any_append, Bool.or_eq_left_iff_imp.mpr hany]
    · -- the first end commits the group, whatever comes behind it
      have hends : k.ends w (e :: es ++ es') = k.ends w (e :: es) := by
        simp [Continuation.ends, hcut]
      rw [verdict_cons (by simp), verdict_cons (by simp), hends]

theorem verdict_congr {limit : Nat} {b : Array Continuation} {stack : List Frame}
    (hab : ∀ i < limit, arena[i]? = b[i]?) (hstack : StackSound limit stack) (es : List End)
    (ks : List Continuation) : verdict w arena es ks stack = verdict w b es ks stack := by
  fun_induction verdict w arena es ks stack generalizing limit with
  | case1 => rw [verdict]
  | case2 ks frame stack ih =>
    obtain ⟨hsize, hcont, hrest⟩ := hstack
    have hbelow : ∀ i < frame.arenaSize, arena[i]? = b[i]? := by
      intro i hi
      exact hab i (Nat.lt_of_lt_of_le hi hsize)
    rw [verdict_nil_cons, ih hbelow hrest, chain_congr hbelow _ hcont]
  | case3 e es stack ih => rw [ih hab hstack, ← verdict_top]
  | case4 e es k ks stack ih => rw [verdict, ih hab (hstack.cutBack _)]

end PathGlob.Search
