import PathGlob.Proofs.Search.Verdict

/-!
# What a search decides

A move does not change the verdict of a state, and the verdict of the state that a search starts
from is whether one of the ends of its sequence is a match. So the search with its stack, its
continuations and its cuts decides what the list of ends decides (`search_eq_any`).

Negated groups make this an induction. A move at a negated group trusts what looking ahead says, and
looking ahead is a search of the level below; so the verdict is right for a setting that foresees
what its negated groups ask for, and a level foresees it for the groups that nest no deeper than the
levels below it go.
-/

namespace PathGlob.Search

variable {w : Setting} {s : State}

/-! ## Verdicts of states -/

/-- Looking ahead tells whether an alternative of the node, if it is a negated group, has an end. -/
def Setting.Foresees (w : Setting) (node : Node) : Prop :=
  ∀ alts, node = .noneOf alts → ∀ pos, (alts.any fun alt ↦ w.lookahead alt pos) =
    (alternativesEnds w.path (w.flags.erase .fullMatch) alts pos != [])

/-- What is known of a state that a search comes to. -/
structure State.Proper (w : Setting) (s : State) : Prop where
  /-- Its indices name what they were made for. -/
  sound : s.Sound
  /-- Its cuts fit its stack. -/
  cuts : s.CutsFit (w.flags.has .fullMatch)
  /-- Its negated groups are foreseen. -/
  foreseen : s.Everywhere w.Foresees

/-- Whether a search accepts that goes on from a state. -/
def State.verdict (w : Setting) (s : State) : Bool :=
  Search.verdict w s.arena (w.ends s.nodes s.pos) (chain s.arena s.continuation) s.stack

/-- Whether a search accepts once a move has led it somewhere. -/
def Outcome.verdict (w : Setting) : Outcome → Bool
  | .running s => s.verdict w
  | .done accepted => accepted
  | .dangling => false

theorem proper_initial {nodes : List Node} (h : Node.Everywhere w.Foresees nodes) (pos : Nat) :
    (State.initial nodes pos).Proper w :=
  ⟨sound_initial nodes pos, cutsFit_initial nodes pos, everywhere_initial h pos⟩

theorem State.Proper.next {s' : State} (h : s.Proper w) (hs : s.next w = .running s') :
    s'.Proper w := by
  have hm : Move w s s' := move_of_next hs
  exact ⟨h.sound.next hs, h.cuts.move h.sound hm, h.foreseen.move hm⟩

/-! ## Choices -/

theorem ends_of_resume_eq_none {choice : Choice} (h : choice.resume w.path = none) :
    choice.ends w = [] := by
  cases choice with
  | span rest last =>
    rw [Choice.resume, ite_eq_right_iff] at h
    rw [Choice.ends, if_neg fun htext ↦ by simpa using h htext]
  | separators rest start =>
    rw [Choice.resume, Option.map_eq_none_iff] at h
    rw [Choice.ends, Path.separatorsFrom_eq, h, List.flatMap_nil]
  | alternatives alts pos =>
    cases alts with
    | nil => rfl
    | cons alt alts => cases h

theorem flatMap_segmentRest (rest : List Node) (pos : Nat) :
    (w.path.segmentRest pos).flatMap (w.ends rest) =
      w.ends rest pos ++ (Choice.span rest pos).ends w := by
  rw [Path.segmentRest_eq_cons, List.flatMap_cons, Choice.ends]
  split
  · rfl
  · rfl

/-- The ends of a choice are those of the walk that it leads to, and then those of what it leaves
open. -/
theorem ends_of_resume_eq_some {choice choice' : Choice} {nodes : List Node} {pos : Nat}
    (h : choice.resume w.path = some (nodes, pos, choice')) :
    choice.ends w = w.ends nodes pos ++ choice'.ends w := by
  cases choice with
  | span rest last =>
    rw [Choice.resume] at h
    split at h
    · next htext =>
      cases h
      rw [Choice.ends, if_pos htext, flatMap_segmentRest]
    · cases h
  | separators rest start =>
    obtain ⟨i, hi, heq⟩ := Option.map_eq_some_iff.mp h
    cases heq
    rw [Choice.ends, Path.separatorsFrom_eq, hi, List.flatMap_cons, Choice.ends]
  | alternatives alts pos =>
    cases alts with
    | nil => cases h
    | cons alt alts =>
      cases h
      rw [Choice.ends, List.flatMap_cons, Choice.ends]

/-! ## Groups -/

/-- Inside a group it does not matter whether a walk was stopped or reached its end. -/
theorem ends_map_leave (k : Continuation) (es : List End) :
    k.ends w (es.map End.leave) = k.ends w es := by
  rw [Continuation.ends, Continuation.ends]
  split
  · rw [← List.map_take, List.flatMap_map]
    rfl
  · rw [List.flatMap_map]
    rfl

theorem alternativesEnds_eq_map (alts : List (List Node)) (pos : Nat) :
    alternativesEnds w.path w.flags alts pos = (alts.flatMap (w.ends · pos)).map End.leave := by
  induction alts with
  | nil => rw [alternativesEnds, List.flatMap_nil, List.map_nil]
  | cons alt alts ih => rw [alternativesEnds, ih, List.flatMap_cons, List.map_append]

/-- The ends behind a group are those of its alternatives, led through what comes behind it. -/
theorem ends_oneOf {k : Continuation} (hcut : k.cut.isSome = !w.flags.has .fullMatch)
    (alts : List (List Node)) (pos : Nat) :
    w.ends (.oneOf alts :: k.rest) pos = k.ends w (alts.flatMap (w.ends · pos)) := by
  have hgoOn : ∀ es : List End, (es.map End.leave).flatMap (·.goOn (w.ends k.rest)) =
      (es.map End.leave).flatMap fun e ↦ w.ends k.rest e.pos := by
    intro es
    rw [List.flatMap_map, List.flatMap_map]
    rfl
  rw [← ends_map_leave, Continuation.ends, Setting.ends, sequenceEnds_cons, nodeEnds,
    alternativesEnds_eq_map, hcut]
  cases w.flags.has .fullMatch
  · simp only [Bool.not_false, if_true, Bool.false_eq_true, if_false, ← List.map_take]
    exact hgoOn _
  · simp only [Bool.not_true, if_true, Bool.false_eq_true, if_false]
    exact hgoOn _

/-! ## Moves -/

theorem verdict_backtrack {whole : Bool} {arena : Array Continuation} {stack : List Frame}
    {limit : Nat} (hsound : StackSound limit stack) (hcuts : StackCutsFit whole arena stack) :
    (backtrack w.path arena stack).verdict w = verdict w arena [] [] stack := by
  induction stack generalizing limit with
  | nil => rw [backtrack, Outcome.verdict, verdict]
  | cons frame stack ih =>
    obtain ⟨hsize, hcont, hbelow⟩ := hsound
    obtain ⟨hframe, hrest⟩ := hcuts
    rw [backtrack, verdict_nil_cons]
    split
    · next hnone =>
      rw [ih hbelow hrest, ends_of_resume_eq_none hnone, verdict_nil (chain _ _)]
    · next nodes pos choice hsome =>
      have hkept := getElem?_shrink_below arena frame.arenaSize
      have hstack : StackSound frame.arenaSize
          (⟨choice, frame.continuation, frame.arenaSize⟩ :: stack) :=
        ⟨Nat.le_refl _, hcont, hbelow⟩
      rw [Outcome.verdict, State.verdict, verdict_congr hkept hstack, chain_congr hkept _ hcont,
        ends_of_resume_eq_some hsome]
      exact (verdict_append ⟨choice, frame.continuation, frame.arenaSize⟩ hframe _).symm

/-- Walking the first alternative with the others left to the stack comes to the same as walking all
of them in turn. -/
theorem verdict_alternatives {whole : Bool} {arena : Array Continuation} {stack : List Frame}
    {inside size : Nat} (hcuts : CutsFit whole stack.length (chain arena (some inside)))
    (alt : List Node) (alts : List (List Node)) (pos : Nat) :
    verdict w arena (w.ends alt pos) (chain arena (some inside))
        (if alts.isEmpty then stack else ⟨.alternatives alts pos, some inside, size⟩ :: stack) =
      verdict w arena ((alt :: alts).flatMap (w.ends · pos)) (chain arena (some inside)) stack := by
  rw [List.flatMap_cons]
  split
  · next hempty => rw [List.isEmpty_iff.mp hempty, List.flatMap_nil, List.append_nil]
  · exact (verdict_append ⟨.alternatives alts pos, some inside, size⟩ hcuts _).symm

variable (h : s.Proper w)

include h

theorem verdict_fail :
    (s.fail w).verdict w = verdict w s.arena [] (chain s.arena s.continuation) s.stack := by
  rw [State.fail, verdict_backtrack h.sound.stack h.cuts.stack, verdict_nil (chain _ _)]

theorem verdict_goOnWith (choice : Choice) (nodes : List Node) (pos : Nat) :
    (s.goOnWith choice nodes pos).verdict w =
      verdict w s.arena (w.ends nodes pos ++ choice.ends w) (chain s.arena s.continuation)
        s.stack :=
  (verdict_append ⟨choice, s.continuation, s.arena.size⟩ h.cuts.chain _).symm

theorem verdict_leave (hnodes : s.nodes = []) : (s.leave w).verdict w = s.verdict w := by
  have hends : w.ends s.nodes s.pos = [.reached s.pos] := by
    rw [hnodes, Setting.ends, sequenceEnds_nil]
  rw [State.verdict, hends, State.leave]
  cases hcont : s.continuation with
  | none =>
    rw [chain_none, verdict_top, List.any_cons, List.any_nil, Bool.or_false, End.isMatch]
    by_cases hmiss : (w.flags.has .fullMatch && s.pos != w.path.size) = true
    · have hno : (!w.flags.has .fullMatch || s.pos == w.path.size) = false := by
        cases hfull : w.flags.has .fullMatch <;> simp_all
      simp only [if_pos hmiss, hno, Bool.false_or, verdict_fail h, hcont, chain_none]
    · have hyes : (!w.flags.has .fullMatch || s.pos == w.path.size) = true := by
        cases hfull : w.flags.has .fullMatch <;> simp_all
      simp only [if_neg hmiss, hyes, Bool.true_or, Outcome.verdict]
  | some i =>
    obtain ⟨k, hk⟩ : ∃ k, s.arena[i]? = some k :=
      ⟨_, Array.getElem?_eq_getElem (h.sound.continuation i hcont)⟩
    have hpass : k.ends w [.reached s.pos] = w.ends k.rest s.pos := by
      simp [Continuation.ends, End.pos]
    simp only [hk, Outcome.verdict, State.verdict]
    rw [chain_some h.sound.arena hk, verdict_cons (by simp), hpass]

/-- Entering a group leaves the verdict as it is: the ends of its first alternative come first, and
those of the others are left to the stack. -/
theorem verdict_enter {rest : List Node} {alts : List (List Node)}
    (hnodes : s.nodes = .oneOf alts :: rest) : (s.enter w rest alts).verdict w = s.verdict w := by
  rw [State.verdict, hnodes]
  cases alts with
  | nil =>
    have hnone : w.ends (.oneOf [] :: rest) s.pos = [] := by
      simp [sequenceEnds_cons, nodeEnds, alternativesEnds]
    rw [hnone]
    exact verdict_fail h
  | cons alt alts =>
    rw [State.enter]
    generalize hcut : (if w.flags.has .fullMatch then none else some s.stack.length) = cut
    let k : Continuation := ⟨rest, s.continuation, cut⟩
    have hinside : chain (s.arena.push k) (some s.arena.size) =
        k :: chain s.arena s.continuation := chain_push h.sound rfl
    have hends : w.ends (.oneOf (alt :: alts) :: rest) s.pos =
        k.ends w ((alt :: alts).flatMap (w.ends · s.pos)) := by
      refine ends_oneOf (k := k) ?_ (alt :: alts) s.pos
      cases hfull : w.flags.has .fullMatch <;> simp [k, ← hcut, hfull]
    -- nothing has been pushed yet, so leaving the group at once would not cut anything away
    have hheight : cutBack s.stack k.cut = s.stack := by
      cases hfull : w.flags.has .fullMatch
      · simp [k, ← hcut, hfull, cutBack_length]
      · simp [k, ← hcut, hfull, cutBack]
    have hcuts := h.cuts.push h.sound (k := k) rfl hcut.symm
    rw [Outcome.verdict, State.verdict, verdict_alternatives hcuts, hinside,
      verdict_cons_of_cutBack_eq hheight, ← hends,
      verdict_congr (getElem?_push_below k) h.sound.stack]

/-- Stopping a sequence leaves the verdict as it is: at top level a stop is a match, and inside a
group it is an end of the alternative like any other. -/
theorem verdict_stop :
    (match s.continuation with
      | none => Outcome.done true
      | some _ => s.goOn [] s.pos).verdict w =
      verdict w s.arena [.stopped s.pos] (chain s.arena s.continuation) s.stack := by
  cases hcont : s.continuation with
  | none =>
    rw [chain_none, verdict_top, List.any_cons, End.isMatch, Bool.true_or, Bool.true_or,
      Outcome.verdict]
  | some i =>
    obtain ⟨k, hk⟩ : ∃ k, s.arena[i]? = some k :=
      ⟨_, Array.getElem?_eq_getElem (h.sound.continuation i hcont)⟩
    have hpass : k.ends w [.reached s.pos] = k.ends w [.stopped s.pos] :=
      (ends_map_leave k [.stopped s.pos])
    simp only [State.goOn, Outcome.verdict, State.verdict, hcont, Setting.ends, sequenceEnds_nil]
    rw [chain_some h.sound.arena hk, verdict_cons (by simp), verdict_cons (by simp), hpass]

theorem verdict_exclude {rest : List Node} {alts : List (List Node)}
    (hnodes : s.nodes = .noneOf alts :: rest) :
    (s.exclude w rest alts).verdict w = s.verdict w := by
  have hforesees : w.Foresees (.noneOf alts) := by
    have hall := h.foreseen.nodes
    rw [hnodes, Node.Everywhere] at hall
    exact hall.1.self
  rw [State.verdict, hnodes, Setting.ends, sequenceEnds_cons, nodeEnds, ← hforesees alts rfl,
    State.exclude]
  by_cases hany : (alts.any fun alt ↦ w.lookahead alt s.pos) = true
  · rw [if_pos hany, if_pos hany, List.flatMap_nil]
    exact verdict_fail h
  rw [if_neg hany, if_neg hany]
  by_cases hlegacy : w.flags.has .legacyNegation = true
  · rw [if_pos hlegacy, if_pos hlegacy, List.flatMap_singleton, End.goOn]
    exact verdict_stop h
  rw [if_neg hlegacy, if_neg hlegacy]
  by_cases hpos : s.pos < w.path.size
  · rw [if_pos hpos, if_pos hpos, List.flatMap_singleton]
    rfl
  · rw [if_neg hpos, if_neg hpos, List.flatMap_nil]
    exact verdict_fail h

theorem verdict_spread {rest : List Node} (hnodes : s.nodes = .globstar :: rest) :
    (s.spread w rest).verdict w = s.verdict w := by
  rw [State.verdict, hnodes, Setting.ends, sequenceEnds_cons, nodeEnds, List.flatMap_map,
    State.spread]
  by_cases hlegacy : w.flags.has .legacyGlobstar = true
  · rw [if_pos hlegacy, if_pos hlegacy, Path.legacyGlobstarPlaces, Path.separatorsFrom_eq]
    cases hnext : w.path.nextSeparator s.pos with
    | none =>
      rw [List.getLast?_nil, List.flatMap_singleton]
      rfl
    | some i =>
      obtain ⟨last, hlast⟩ := Option.isSome_iff_exists.mp
        (List.getLast?_isSome.mpr (List.cons_ne_nil i (w.path.separatorsFrom (i + 1))))
      have hmem := List.mem_of_getLast? hlast
      have hagain : w.ends rest last ⊆
          (i :: w.path.separatorsFrom (i + 1)).flatMap (w.ends rest) := by
        intro e he
        exact List.mem_flatMap.mpr ⟨last, hmem, he⟩
      simp only [hlast]
      rw [verdict_goOnWith h, List.flatMap_append, List.flatMap_singleton]
      -- the search does not go back to the last separator
      exact (verdict_append_of_subset h.cuts.chain hagain).symm
  · rw [if_neg hlegacy, if_neg hlegacy, verdict_goOnWith h, Path.globstarPlaces, List.flatMap_cons]
    rfl

theorem verdict_visit {node : Node} {rest : List Node} (hnodes : s.nodes = node :: rest) :
    (s.visit w rest node).verdict w = s.verdict w := by
  cases node with
  | globstar => exact verdict_spread h hnodes
  | oneOf alts => exact verdict_enter h hnodes
  | noneOf alts => exact verdict_exclude h hnodes
  | slash | anyChar | literal | range =>
    rw [State.verdict, hnodes, Setting.ends, sequenceEnds_cons, nodeEnds, State.visit]
    split
    · rw [List.flatMap_singleton]
      rfl
    · rw [List.flatMap_nil]
      exact verdict_fail h
  | anyText =>
    rw [State.verdict, hnodes, Setting.ends, sequenceEnds_cons, nodeEnds, List.flatMap_map]
    have hends : (w.path.segmentRest s.pos).flatMap (fun pos ↦
        (End.reached pos).goOn (sequenceEnds w.path w.flags rest)) =
          w.ends rest s.pos ++ (Choice.span rest s.pos).ends w := flatMap_segmentRest rest s.pos
    rw [hends, State.visit]
    split
    · exact verdict_goOnWith h _ _ _
    · next htext =>
      rw [Choice.ends, if_neg htext, List.append_nil]
      rfl

theorem verdict_next : (s.next w).verdict w = s.verdict w := by
  rw [State.next]
  split
  · next hnodes => exact verdict_leave h hnodes
  · next node rest hnodes => exact verdict_visit h hnodes

omit h

/-! ## Runs -/

theorem run_eq_verdict (hsound : s.Sound) (h : s.Proper w) : run w s hsound = s.verdict w := by
  fun_induction run w s hsound with
  | case1 s hsound s' hs ih => rw [ih (h.next hs), ← verdict_next h, hs, Outcome.verdict]
  | case2 s hsound accepted hs => rw [← verdict_next h, hs, Outcome.verdict]

/-! ## Levels -/

section Depth

variable {P : Node → Prop} {n : Nat}

mutual

theorem throughout_of_negationDepth_le (hP : ∀ node, Node.negationDepth node ≤ n → P node) :
    ∀ {node : Node}, node.negationDepth ≤ n → Node.Throughout P node
  | .slash, h | .globstar, h | .anyChar, h | .anyText, h => hP _ h
  | .literal _, h | .range _ _, h => hP _ h
  | .oneOf alts, h =>
    ⟨hP _ h, everywhereIn_of_negationDepth_le hP (by rwa [Node.negationDepth] at h)⟩
  | .noneOf alts, h => by
    rw [Node.Throughout]
    refine ⟨hP _ h, everywhereIn_of_negationDepth_le hP ?_⟩
    rw [Node.negationDepth] at h
    omega

theorem everywhere_of_negationDepth_le (hP : ∀ node, Node.negationDepth node ≤ n → P node) :
    ∀ {nodes : List Node}, Node.sequenceNegationDepth nodes ≤ n → Node.Everywhere P nodes
  | [], _ => trivial
  | node :: rest, h => by
    rw [Node.sequenceNegationDepth, Nat.max_le] at h
    exact ⟨throughout_of_negationDepth_le hP h.1, everywhere_of_negationDepth_le hP h.2⟩

theorem everywhereIn_of_negationDepth_le (hP : ∀ node, Node.negationDepth node ≤ n → P node) :
    ∀ {alts : List (List Node)}, Node.alternativesNegationDepth alts ≤ n → Node.EverywhereIn P alts
  | [], _ => trivial
  | alt :: alts, h => by
    rw [Node.alternativesNegationDepth, Nat.max_le] at h
    exact ⟨everywhere_of_negationDepth_le hP h.1, everywhereIn_of_negationDepth_le hP h.2⟩

end

end Depth

theorem le_alternativesNegationDepth {alt : List Node} {alts : List (List Node)} (h : alt ∈ alts) :
    Node.sequenceNegationDepth alt ≤ Node.alternativesNegationDepth alts := by
  induction alts with
  | nil => exact absurd h List.not_mem_nil
  | cons alt' alts ih =>
    rw [Node.alternativesNegationDepth]
    rcases List.mem_cons.mp h with rfl | hmem
    · exact Nat.le_max_left _ _
    · exact Nat.le_trans (ih hmem) (Nat.le_max_right _ _)

theorem any_isMatch_of_not_fullMatch {path : Path} {flags : Flags}
    (hflags : flags.has .fullMatch = false) (es : List End) :
    es.any (End.isMatch path flags) = (es != []) := by
  cases es with
  | nil => rfl
  | cons e es => cases e <;> simp [End.isMatch, hflags]

/-- Looking ahead by searches that are right foresees what a negated group asks for. -/
theorem any_eq_of_search {path : Path} {flags : Flags} (hflags : flags.has .fullMatch = false)
    {lookahead : List Node → Nat → Bool} {alts : List (List Node)} {pos : Nat}
    (h : ∀ alt ∈ alts, lookahead alt pos =
      (sequenceEnds path flags alt pos).any (End.isMatch path flags)) :
    (alts.any fun alt ↦ lookahead alt pos) = (alternativesEnds path flags alts pos != []) := by
  induction alts with
  | nil => rw [List.any_nil, alternativesEnds, bne_self_eq_false]
  | cons alt alts ih =>
    rw [List.any_cons, alternativesEnds, h alt List.mem_cons_self,
      any_isMatch_of_not_fullMatch hflags, ih fun alt' hmem ↦ h alt' (List.mem_cons_of_mem _ hmem)]
    rw [Bool.eq_iff_iff, Bool.or_eq_true, bne_iff_ne, bne_iff_ne, bne_iff_ne, ne_eq, ne_eq, ne_eq,
      List.append_eq_nil_iff, List.map_eq_nil_iff]
    exact Decidable.not_and_iff_not_or_not.symm

/-- **What a search decides.** With enough levels for its negated groups a search accepts exactly if
one of the ends of its sequence is a match. -/
theorem search_eq_any (path : Path) {level : Nat} {flags : Flags} {nodes : List Node}
    (hlevel : Node.sequenceNegationDepth nodes < level) (pos : Nat) :
    search path level flags nodes pos =
      (sequenceEnds path flags nodes pos).any (End.isMatch path flags) := by
  induction level generalizing flags nodes pos with
  | zero => exact absurd hlevel (Nat.not_lt_zero _)
  | succ level ih =>
    -- the level below is right for what the negated groups of this one look ahead at
    let w : Setting := ⟨path, flags, search path level (flags.erase .fullMatch)⟩
    have hforesees : ∀ node, Node.negationDepth node ≤ level → w.Foresees node := by
      intro node hnode alts halts p
      rw [halts, Node.negationDepth] at hnode
      refine any_eq_of_search (by simp [w]) ?_
      intro alt halt
      refine ih ?_ p
      exact Nat.lt_of_le_of_lt (le_alternativesNegationDepth halt) hnode
    have hproper : (State.initial nodes pos).Proper w :=
      proper_initial (everywhere_of_negationDepth_le hforesees (Nat.le_of_lt_succ hlevel)) pos
    rw [search, run_eq_verdict (sound_initial nodes pos) hproper, State.verdict, State.initial,
      chain_none, verdict_top, verdict, Bool.or_false]

theorem foresees_of_negationDepth_le {path : Path} {flags : Flags} {level : Nat} {node : Node}
    (hlevel : Node.negationDepth node ≤ level) :
    Setting.Foresees ⟨path, flags, search path level (flags.erase .fullMatch)⟩ node := by
  intro alts halts pos
  rw [halts, Node.negationDepth] at hlevel
  refine any_eq_of_search (by simp) ?_
  intro alt halt
  exact search_eq_any path (Nat.lt_of_le_of_lt (le_alternativesNegationDepth halt) hlevel) pos

theorem accepts_iff {path : Path} {flags : Flags} {nodes : List Node} :
    accepts path flags nodes = true ↔
      ∃ e ∈ sequenceEnds path flags nodes 0, e.isMatch path flags = true := by
  rw [accepts, search_eq_any path (Nat.lt_succ_self _), List.any_eq_true]

theorem accepts_of_sequenceEnds_eq {path : Path} {flags : Flags} {nodes : List Node} {first : End}
    {others : List End} (hends : sequenceEnds path flags nodes 0 = first :: others)
    (hmatch : first.isMatch path flags = true) : accepts path flags nodes = true := by
  refine accepts_iff.mpr ⟨first, ?_, hmatch⟩
  rw [hends]
  exact List.mem_cons_self

theorem accepts_iff_exists_mem {path : Path} {flags : Flags} {nodes : List Node}
    (hfull : flags.has .fullMatch = false) :
    accepts path flags nodes = true ↔ ∃ e, e ∈ sequenceEnds path flags nodes 0 := by
  rw [accepts, search_eq_any path (Nat.lt_succ_self _), any_isMatch_of_not_fullMatch hfull,
    bne_iff_ne, ne_eq, List.eq_nil_iff_forall_not_mem, Classical.not_forall_not]

/-- **The search and the lists of ends agree.** The search with its stack of choices, its arena of
continuations and its cuts gives the answer that the lists of ends give, whatever the sequence, the
path and the flags. -/
theorem accepts_eq_hasMatch (path : Path) (flags : Flags) (nodes : List Node) :
    accepts path flags nodes = hasMatch path flags nodes := by
  rw [Bool.eq_iff_iff, accepts_iff, hasMatch, List.any_eq_true]

end PathGlob.Search
