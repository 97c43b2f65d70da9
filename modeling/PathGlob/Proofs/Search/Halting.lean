import Mathlib.Logic.Relation
import PathGlob.Proofs.Search.Decision
import PathGlob.Search.Machine

/-!
# Every search halts

A machine spells out what a move of a search does at once: it drops exhausted choices one at a time,
and it runs the searches that a negated group asks for. Its steps lead where the moves lead. At a
dead end they come to the choice that backtracking takes up, at a negated group they come to the
answers that looking ahead gives, and so they come to the answer of the search
(`leadsTo_search`). Two inductions carry this: one on the levels of negation, since a negated group
asks only searches of the level below, and one along the run of a search, which ends because every
move lowers its cost.

A machine has one step only to make, so one that comes to an answer has no other way to go on, and
no sequence of its steps is infinite.
-/

namespace PathGlob.Search

variable {path : Path} {flags : Flags} {w : Setting} {s s' : State}

/-! ## Dead ends and questions -/

namespace State

theorem leave_eq_fail (h : State.leave { s with stack := [] } w = .done false) :
    s.leave w = s.fail w := by
  rw [leave] at h ⊢
  cases hcont : s.continuation with
  | none =>
    simp only [hcont] at h ⊢
    split at h
    · next hmiss => rw [if_pos hmiss]
    · cases h
  | some i =>
    simp only [hcont] at h
    split at h <;> cases h

theorem exclude_eq_fail {rest : List Node} {alts : List (List Node)}
    (h : State.exclude { s with stack := [] } w rest alts = .done false) :
    s.exclude w rest alts = s.fail w := by
  rw [exclude] at h ⊢
  split at h
  · next hany => rw [if_pos hany]
  · next hany =>
    rw [if_neg hany]
    split at h
    · split at h <;> cases h
    · next hlegacy =>
      rw [if_neg hlegacy]
      split at h
      · cases h
      · next hpos => rw [if_neg hpos]

theorem visit_eq_fail {rest : List Node} {node : Node}
    (h : State.visit { s with stack := [] } w rest node = .done false) :
    s.visit w rest node = s.fail w := by
  cases node with
  | slash | anyChar | literal | range =>
    rw [visit] at h ⊢
    split at h
    · cases h
    · next hrune => rw [if_neg hrune]
  | anyText =>
    rw [visit] at h
    split at h <;> cases h
  | globstar =>
    rw [visit, spread] at h
    repeat' split at h
    all_goals cases h
  | oneOf alts =>
    cases alts with
    | nil => rfl
    | cons alt alts => cases h
  | noneOf alts => exact exclude_eq_fail h

theorem next_eq_fail_of_isDeadEnd (h : s.isDeadEnd w = true) : s.next w = s.fail w := by
  have hover : State.next { s with stack := [] } w = .done false := by
    rw [isDeadEnd] at h
    split at h
    · next accepted hdone =>
      rw [hdone, (Bool.not_eq_true' accepted).mp h]
    · cases h
    · cases h
  rw [next] at hover ⊢
  split at hover
  · next hnodes =>
    have hnodes : s.nodes = [] := hnodes
    rw [hnodes]
    exact leave_eq_fail hover
  · next node rest hnodes =>
    have hnodes : s.nodes = node :: rest := hnodes
    rw [hnodes]
    exact visit_eq_fail hover

theorem next_eq_of_question?_eq_none (h : s.question? = none)
    (lookahead lookahead' : List Node → Nat → Bool) :
    s.next ⟨path, flags, lookahead⟩ = s.next ⟨path, flags, lookahead'⟩ := by
  rw [next, next]
  split
  · rfl
  · next node rest hnodes =>
    cases node with
    | noneOf alts =>
      cases alts with
      | nil => rfl
      | cons alt alts =>
        rw [question?, hnodes] at h
        cases h
    | slash | globstar | anyChar | anyText | literal | range | oneOf => rfl

variable {alt rest : List Node} {alts : List (List Node)}

theorem next_of_lookahead (hnodes : s.nodes = .noneOf (alt :: alts) :: rest)
    (h : w.lookahead alt s.pos = true) : s.next w = s.fail w := by
  rw [next, hnodes]
  change s.exclude w rest (alt :: alts) = s.fail w
  rw [exclude, List.any_cons, h, Bool.true_or, if_pos rfl]

theorem next_of_not_lookahead (hnodes : s.nodes = .noneOf (alt :: alts) :: rest)
    (h : w.lookahead alt s.pos = false) :
    s.next w = State.next { s with nodes := .noneOf alts :: rest } w := by
  rw [next, hnodes]
  change s.exclude w rest (alt :: alts) = State.exclude { s with nodes := _ } w rest alts
  rw [exclude, exclude, List.any_cons, h, Bool.false_or]
  rfl

end State

/-! ## Steps -/

namespace Machine

/-- Steps lead from one machine to another. -/
def Reaches (path : Path) : Machine → Machine → Prop :=
  Relation.ReflTransGen fun m m' ↦ m.step path = .running m'

/-- Steps lead from a machine to one whose next step is known. -/
def LeadsTo (path : Path) (m : Machine) (p : Progress) : Prop :=
  ∃ last, Reaches path m last ∧ last.step path = p

variable {m m' : Machine} {p : Progress} {waiting : List Waiting}

theorem leadsTo_of_step (h : m.step path = p) : m.LeadsTo path p := ⟨m, .refl, h⟩

theorem LeadsTo.trans (h : m.LeadsTo path (.running m')) (h' : m'.LeadsTo path p) :
    m.LeadsTo path p := by
  obtain ⟨mid, hmid, hstep⟩ := h
  obtain ⟨last, hlast, hp⟩ := h'
  exact ⟨last, (hmid.tail hstep).trans hlast, hp⟩

theorem leadsTo_backtrack (arena : Array Continuation) (stack : List Frame) :
    LeadsTo path ⟨flags, .backtrack arena stack, waiting⟩
      ((backtrack path arena stack).progress flags waiting) := by
  induction stack with
  | nil => exact leadsTo_of_step rfl
  | cons frame stack ih =>
    rw [backtrack]
    split
    · next hnone =>
      refine LeadsTo.trans (leadsTo_of_step ?_) ih
      simp only [step, hnone]
    · next nodes pos choice hsome =>
      apply leadsTo_of_step
      simp only [step, hsome, Outcome.progress]

theorem leadsTo_of_question?_eq_none (h : s.question? = none)
    (lookahead : List Node → Nat → Bool) :
    LeadsTo path ⟨flags, .walk s, waiting⟩
      ((s.next ⟨path, flags, lookahead⟩).progress flags waiting) := by
  have hstep : step path ⟨flags, .walk s, waiting⟩ = walk path flags s waiting := by
    simp only [step, h]
  rw [State.next_eq_of_question?_eq_none h lookahead fun _ _ ↦ false]
  rw [walk] at hstep
  split at hstep
  · next hdead =>
    rw [State.next_eq_fail_of_isDeadEnd hdead]
    exact (leadsTo_of_step hstep).trans (leadsTo_backtrack s.arena s.stack)
  · exact leadsTo_of_step hstep

/-! ## Answers -/

/-- The machine comes to the answers that looking ahead gives for the alternatives of the node, if
it is a negated group. -/
def Foresees (path : Path) (flags : Flags) (lookahead : List Node → Nat → Bool) (node : Node) :
    Prop :=
  ∀ alts, node = .noneOf alts → ∀ alt ∈ alts, ∀ pos waiting,
    LeadsTo path ⟨flags.erase .fullMatch, .walk (.initial alt pos), waiting⟩
      (answer (lookahead alt pos) waiting)

/-- At a negated group the machine asks about one alternative after the other, and its steps lead
where the move does that has all answers at once. -/
theorem leadsTo_of_noneOf {lookahead : List Node → Nat → Bool} {alts : List (List Node)}
    {rest : List Node} (h : Foresees path flags lookahead (.noneOf alts))
    (hnodes : s.nodes = .noneOf alts :: rest) :
    LeadsTo path ⟨flags, .walk s, waiting⟩
      ((s.next ⟨path, flags, lookahead⟩).progress flags waiting) := by
  -- the alternatives that were asked about are left out of the group, so the move stays the same
  induction alts generalizing s with
  | nil =>
    refine leadsTo_of_question?_eq_none ?_ lookahead
    rw [State.question?, hnodes]
  | cons alt alts ih =>
    let s' : State := { s with nodes := .noneOf alts :: rest }
    have hask : step path ⟨flags, .walk s, waiting⟩ = .running
        ⟨flags.erase .fullMatch, .walk (.initial alt s.pos), ⟨flags, s'⟩ :: waiting⟩ := by
      simp only [step, State.question?, hnodes, s']
    have hanswer := (leadsTo_of_step hask).trans (h _ rfl alt List.mem_cons_self s.pos _)
    rw [answer] at hanswer
    apply hanswer.trans
    cases halt : lookahead alt s.pos
    · -- the alternative does not match, and the group is left with the others
      have hothers : Foresees path flags lookahead (.noneOf alts) := by
        rintro _ ⟨⟩ alt' halt'
        exact h _ rfl alt' (List.mem_cons_of_mem _ halt')
      rw [State.next_of_not_lookahead hnodes halt]
      exact ih hothers rfl
    · rw [State.next_of_lookahead hnodes halt]
      exact leadsTo_backtrack s.arena s.stack

theorem leadsTo_next {lookahead : List Node → Nat → Bool}
    (h : s.Everywhere (Foresees path flags lookahead)) (waiting : List Waiting) :
    LeadsTo path ⟨flags, .walk s, waiting⟩
      ((s.next ⟨path, flags, lookahead⟩).progress flags waiting) := by
  cases hquestion : s.question? with
  | none => exact leadsTo_of_question?_eq_none hquestion lookahead
  | some question =>
    obtain ⟨alts, rest, hnodes⟩ : ∃ alts rest, s.nodes = .noneOf alts :: rest := by
      rw [State.question?] at hquestion
      split at hquestion
      · next alt alts rest hnodes => exact ⟨_, _, hnodes⟩
      · cases hquestion
    have hall := h.nodes
    rw [hnodes, Node.Everywhere] at hall
    exact leadsTo_of_noneOf hall.1.self hnodes

theorem leadsTo_run {lookahead : List Node → Nat → Bool} (hsound : s.Sound)
    (h : s.Everywhere (Foresees path flags lookahead)) :
    LeadsTo path ⟨flags, .walk s, waiting⟩
      (answer (run ⟨path, flags, lookahead⟩ s hsound) waiting) := by
  -- along the run, whose moves lower the cost
  fun_induction run ⟨path, flags, lookahead⟩ s hsound with
  | case1 s hsound s' hs ih =>
    have hmove := leadsTo_next h waiting
    rw [hs] at hmove
    exact hmove.trans (ih (h.move (move_of_next hs)))
  | case2 s hsound accepted hs =>
    have hmove := leadsTo_next h waiting
    rwa [hs] at hmove

/-- **The machine searches.** With enough levels for the negated groups, the steps from the start of
a search lead to its answer, whatever searches wait for it. -/
theorem leadsTo_search (path : Path) {level : Nat} {flags : Flags} {nodes : List Node}
    (hlevel : Node.sequenceNegationDepth nodes < level) (pos : Nat) (waiting : List Waiting) :
    LeadsTo path ⟨flags, .walk (.initial nodes pos), waiting⟩
      (answer (search path level flags nodes pos) waiting) := by
  induction level generalizing flags nodes pos waiting with
  | zero => exact absurd hlevel (Nat.not_lt_zero _)
  | succ level ih =>
    have hforesees : ∀ node, Node.negationDepth node ≤ level →
        Foresees path flags (search path level (flags.erase .fullMatch)) node := by
      intro node hnode alts halts alt halt p asking
      rw [halts, Node.negationDepth] at hnode
      apply ih
      exact Nat.lt_of_le_of_lt (le_alternativesNegationDepth halt) hnode
    rw [search]
    apply leadsTo_run
    apply everywhere_initial
    exact everywhere_of_negationDepth_le hforesees (Nat.le_of_lt_succ hlevel)

/-! ## Traces -/

/-- Whatever a machine comes to lies on every sequence of its steps, since it has no other way to
go. -/
theorem exists_trace_eq_of_reaches {last : Machine} (h : Reaches path m last)
    {trace : Nat → Machine} (hstart : trace 0 = m)
    (htrace : ∀ n, (trace n).step path = .running (trace (n + 1))) :
    ∃ n, trace n = last := by
  induction h with
  | refl => exact ⟨0, hstart⟩
  | tail _ hstep ih =>
    obtain ⟨n, rfl⟩ := ih
    refine ⟨n + 1, ?_⟩
    rw [htrace n] at hstep
    cases hstep
    rfl

end Machine

/-- Along a sequence of moves the cost pays for all of them. -/
theorem State.Sound.trace {trace : Nat → State} (h : (trace 0).Sound)
    (htrace : ∀ n, (trace n).next w = .running (trace (n + 1))) (n : Nat) :
    (trace n).Sound ∧ (trace n).cost w.path.size + n ≤ (trace 0).cost w.path.size := by
  induction n with
  | zero => exact ⟨h, Nat.le_refl _⟩
  | succ n ih =>
    obtain ⟨hsound, hcost⟩ := ih
    have hlt := hsound.cost_lt_of_next (htrace n)
    refine ⟨hsound.next (htrace n), ?_⟩
    omega

/-- **Every search halts.** The machine of a search comes to the answer of the search after finitely
many steps, those of the searches that it looks ahead with included, and no sequence of its steps is
infinite. Nor is a sequence of moves, whatever looking ahead answers. -/
theorem halts_with_answer (path : Path) (flags : Flags) (nodes : List Node) :
    (∃ last, Machine.Reaches path (.start flags nodes 0) last ∧
        last.step path = .done (accepts path flags nodes)) ∧
      (¬∃ trace : Nat → Machine, trace 0 = .start flags nodes 0 ∧
        ∀ n, (trace n).step path = .running (trace (n + 1))) ∧
      ∀ lookahead, ¬∃ trace : Nat → State, trace 0 = .initial nodes 0 ∧
        ∀ n, (trace n).next ⟨path, flags, lookahead⟩ = .running (trace (n + 1)) := by
  obtain ⟨last, hlast, hdone⟩ : Machine.LeadsTo path (.start flags nodes 0)
      (.done (accepts path flags nodes)) := Machine.leadsTo_search path (Nat.lt_succ_self _) 0 []
  refine ⟨⟨last, hlast, hdone⟩, ?_, ?_⟩
  · rintro ⟨trace, hstart, htrace⟩
    obtain ⟨n, rfl⟩ := Machine.exists_trace_eq_of_reaches hlast hstart htrace
    rw [htrace n] at hdone
    cases hdone
  · rintro lookahead ⟨trace, hstart, htrace⟩
    have hsound : (trace 0).Sound := hstart ▸ sound_initial nodes 0
    obtain ⟨-, hcost⟩ := hsound.trace htrace ((trace 0).cost path.size + 1)
    dsimp only at hcost
    omega

end PathGlob.Search
