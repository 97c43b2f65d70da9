import Mathlib.Logic.Relation
import PathGlob.Proofs.Syntax.Heads
import PathGlob.Proofs.Syntax.Outcome
import PathGlob.Syntax.Reader

/-!
# A reader comes to what reading comes to

The steps of a reader lead where the functions that read lead: a literal, a class, an item or a
sequence that they read is read in some steps of the reader, which then stands behind it with the
node among those read so far, and an error that they give is what the reader is done with. The
proofs recurse as the functions do. What is on the stack stays as it is meanwhile, so a group is
read in whatever groups are open around it.

Main statement: `Reader.leadsTo_ofRunes`, for whole texts.
-/

namespace PathGlob.Reading

namespace Reader

/-! ## Steps -/

/-- Steps lead from one reader to another. -/
def Reaches : Reader → Reader → Prop :=
  Relation.ReflTransGen fun m m' ↦ m.step = .running m'

/-- Steps lead from a reader to one whose next step is known. -/
def LeadsTo (m : Reader) (p : Progress) : Prop := ∃ last, m.Reaches last ∧ last.step = p

variable {m m' mid : Reader} {p : Progress} {α β : Type}

theorem leadsTo_of_step (h : m.step = p) : m.LeadsTo p := ⟨m, .refl, h⟩

theorem Reaches.leadsTo (h : m.Reaches m') (h' : m'.LeadsTo p) : m.LeadsTo p := by
  obtain ⟨last, hlast, hp⟩ := h'
  exact ⟨last, h.trans hlast, hp⟩

theorem reaches_of_step (h : m.step = .running m') : m.Reaches m' := .single h

/-- The steps of a reader come to a result: to an error that it is done with, or to a reader that
goes on behind the value. -/
def ComesTo (m : Reader) (result : Except CompileError (α × Cursor))
    (behind : α → Cursor → Reader) : Prop :=
  match result with
  | .error e => m.LeadsTo (.done (.error e))
  | .ok (value, next) => m.Reaches (behind value next)

variable {result : Except CompileError (α × Cursor)} {behind : α → Cursor → Reader}

theorem ComesTo.of_reaches (h : m.Reaches m') (h' : m'.ComesTo result behind) :
    m.ComesTo result behind := by
  cases result with
  | error e => exact h.leadsTo h'
  | ok reading => exact h.trans h'

theorem comesTo_of_step (h : m.step = .running m') (h' : m'.ComesTo result behind) :
    m.ComesTo result behind := .of_reaches (reaches_of_step h) h'

theorem comesTo_map {f : α × Cursor → β × Cursor} {behind : β → Cursor → Reader} :
    m.ComesTo (result.map f) behind ↔
      m.ComesTo result fun value next ↦ behind (f (value, next)).1 (f (value, next)).2 := by
  cases result <;> exact Iff.rfl

end Reader

open Reader

variable {inBraces : Bool} {r : Char} {rest : List Char} {offset depth : Nat} {c next : Cursor}
  {nodes : List Node} {groups : List OpenGroup} {e : CompileError}

/-! ## Classes -/

theorem comesTo_upperBound {cls : OpenClass} {lo : Char} :
    ComesTo ⟨c, .upperBound cls lo, nodes, groups⟩
      ((outcome (classRune c)).bind fun (hi, next) ↦
        if hi < lo then .error (.expected .upperBound (some hi) c.offset)
        else .ok (.range lo hi, next))
      fun node next ↦ ⟨next, .members (cls.push node), nodes, groups⟩ := by
  rcases hhi : outcome (classRune c) with e | ⟨hi, next⟩
  · apply leadsTo_of_step
    simp only [step, stepUpperBound, outcome_eq_error.mp hhi]
  · obtain ⟨_, hclassRune⟩ := outcome_eq_ok.mp hhi
    simp only [Except.bind]
    split
    · next hlt =>
      apply leadsTo_of_step
      simp only [step, stepUpperBound, hclassRune, if_pos hlt]
    · next hlt =>
      apply reaches_of_step
      simp only [step, stepUpperBound, hclassRune, if_neg hlt, goOn]

theorem comesTo_member {cls : OpenClass} :
    ComesTo ⟨c, .lowerBound cls, nodes, groups⟩ (outcome (member c))
      fun node next ↦ ⟨next, .members (cls.push node), nodes, groups⟩ := by
  rcases hlo : outcome (classRune c) with e | ⟨lo, next⟩
  · rw [outcome_member_of_error hlo]
    apply leadsTo_of_step
    simp only [step, stepLowerBound, outcome_eq_error.mp hlo]
  · obtain ⟨_, hclassRune⟩ := outcome_eq_ok.mp hlo
    by_cases hdash : ∀ r rest, next.rest = '-' :: r :: rest → r = ']'
    · rw [outcome_member_single hlo hdash]
      apply reaches_of_step
      simp only [step, stepLowerBound, hclassRune]
      split
      · rw [if_pos (hdash _ _ rfl)]
        rfl
      · rfl
    · obtain ⟨r, rest, hrest, hr⟩ : ∃ r rest, next.rest = '-' :: r :: rest ∧ r ≠ ']' := by
        simpa using hdash
      obtain ⟨_, offset, depth⟩ := next
      cases hrest
      have hstep : step ⟨c, .lowerBound cls, nodes, groups⟩ =
          .running ⟨⟨r :: rest, offset + 1, depth⟩, .upperBound cls lo, nodes, groups⟩ := by
        simp only [step, stepLowerBound, hclassRune, if_neg hr, goOn]
      rw [outcome_member_range hlo hr]
      exact comesTo_of_step hstep comesTo_upperBound

theorem comesTo_members {c start : Cursor} {negated : Bool} {soFar : List (List Node)}
    {hc : c.rest.length < start.rest.length} :
    ComesTo ⟨c, .members ⟨negated, soFar⟩, nodes, groups⟩ (outcome (members start soFar c hc))
      fun members next ↦ ⟨next, .sequence,
        (if negated then .noneOf members else .oneOf members) :: nodes, groups⟩ := by
  match c, hc with
  | ⟨[], offset, depth⟩, hc =>
    rw [outcome_members_nil]
    exact leadsTo_of_step rfl
  | ⟨r :: rest, offset, depth⟩, hc =>
    by_cases hr : r = ']'
    · subst hr
      rw [outcome_members_close]
      cases soFar with
      | nil => exact leadsTo_of_step rfl
      | cons member soFar => exact reaches_of_step rfl
    · have hstep : step ⟨⟨r :: rest, offset, depth⟩, .members ⟨negated, soFar⟩, nodes, groups⟩ =
          .running ⟨⟨r :: rest, offset, depth⟩, .lowerBound ⟨negated, soFar⟩, nodes, groups⟩ := by
        simp only [step, stepMembers, if_neg hr, goOn]
      apply comesTo_of_step hstep
      have hmember := @comesTo_member ⟨r :: rest, offset, depth⟩ nodes groups ⟨negated, soFar⟩
      rcases houtcome : outcome (member ⟨r :: rest, offset, depth⟩) with e | ⟨node, next⟩
      · rw [outcome_members_of_error hr houtcome]
        rwa [houtcome] at hmember
      · obtain ⟨hlt, heq⟩ := outcome_members_of_ok hr houtcome
        rw [heq]
        rw [houtcome] at hmember
        exact .of_reaches hmember comesTo_members
termination_by c.rest.length
decreasing_by exact hlt

/-! ## Items -/

theorem step_eq_startItem (hr : (!groups.isEmpty && endsAlternative r) = false) :
    step ⟨⟨r :: rest, offset, depth⟩, .sequence, nodes, groups⟩ =
      startItem ⟨⟨r :: rest, offset, depth⟩, .sequence, nodes, groups⟩ r rest offset depth := by
  cases groups with
  | nil => rfl
  | cons group groups =>
    have hends : endsAlternative r = false := hr
    simp only [step, stepSequence, hends, if_neg Bool.false_ne_true]

theorem comesTo_bracketClass :
    ComesTo ⟨⟨'[' :: rest, offset, depth⟩, .sequence, nodes, groups⟩
      (outcome (bracketClass rest offset depth))
      fun node next ↦ ⟨next, .sequence, node :: nodes, groups⟩ := by
  have hstep := @step_eq_startItem '[' rest offset depth nodes groups
    (endsAlternative_of_startsItem rfl)
  by_cases hmark : rest.head? = some '!'
  · obtain ⟨rest, rfl⟩ := List.head?_eq_some_iff.mp hmark
    rw [outcome_bracketClass_negated, comesTo_map]
    exact comesTo_of_step hstep comesTo_members
  · rw [outcome_bracketClass hmark, comesTo_map]
    have hopens : step ⟨⟨'[' :: rest, offset, depth⟩, .sequence, nodes, groups⟩ =
        .running ⟨⟨rest, offset + 1, depth⟩, .members ⟨false, []⟩, nodes, groups⟩ := by
      rw [hstep, startItem, openClass]
      · rfl
      · rintro rest rfl
        exact hmark rfl
    exact comesTo_of_step hopens comesTo_members

theorem comesTo_literalTail {c start : Cursor} {soFar : List Char} (hne : soFar ≠ [])
    {hc : c.rest.length < start.rest.length} :
    ComesTo ⟨c, .literal soFar, nodes, groups⟩
      (outcome (literalTail (!groups.isEmpty) start soFar c hc))
      fun node next ↦ ⟨next, .sequence, node :: nodes, groups⟩ := by
  have hsome : (!soFar.isEmpty) = true := by simpa using hne
  match c, hc with
  | ⟨[], offset, depth⟩, hc =>
    rw [outcome_literalTail_nil]
    exact reaches_of_step rfl
  | ⟨r :: rest, offset, depth⟩, hc =>
    by_cases hends : endsLiteral (!groups.isEmpty) r = true
    · rw [outcome_literalTail_ends hends]
      apply reaches_of_step
      simp only [step, stepLiteral, hsome, hends, Bool.and_self, if_true, push]
    · rw [Bool.not_eq_true] at hends
      rcases hrune : outcome (rune r rest offset depth) with e | ⟨r', next⟩
      · rw [outcome_literalTail_of_error hends hrune]
        apply leadsTo_of_step
        simp only [step, stepLiteral, hends, Bool.and_false, if_neg Bool.false_ne_true,
          outcome_eq_error.mp hrune]
      · obtain ⟨hlt, heq⟩ := outcome_literalTail_of_ok hends hrune
        obtain ⟨_, hreads⟩ := outcome_eq_ok.mp hrune
        rw [heq]
        refine comesTo_of_step ?_ (comesTo_literalTail (List.cons_ne_nil r' soFar))
        simp only [step, stepLiteral, hends, Bool.and_false, if_neg Bool.false_ne_true, hreads,
          goOn]
termination_by c.rest.length
decreasing_by exact hlt

/-- A literal, from its first rune on, which is not asked whether it ends the literal. -/
theorem comesTo_literal :
    ComesTo ⟨⟨r :: rest, offset, depth⟩, .literal [], nodes, groups⟩
      (outcome (literal (!groups.isEmpty) r rest offset depth))
      fun node next ↦ ⟨next, .sequence, node :: nodes, groups⟩ := by
  rcases hrune : outcome (rune r rest offset depth) with e | ⟨r', next⟩
  · rw [outcome_literal_of_error hrune]
    apply leadsTo_of_step
    simp only [step, stepLiteral, List.isEmpty_nil, Bool.not_true, Bool.false_and,
      if_neg Bool.false_ne_true, outcome_eq_error.mp hrune]
  · obtain ⟨_, heq⟩ := outcome_literal_of_ok hrune
    obtain ⟨_, hreads⟩ := outcome_eq_ok.mp hrune
    rw [heq]
    refine comesTo_of_step ?_ (comesTo_literalTail (List.cons_ne_nil r' []))
    simp only [step, stepLiteral, List.isEmpty_nil, Bool.not_true, Bool.false_and,
      if_neg Bool.false_ne_true, hreads, goOn]

/-! ## Sequences and alternatives -/

theorem endsSequence_of_outcome {c start : Cursor} {soFar nodes' : List Node}
    {hc : c.rest.length ≤ start.rest.length}
    (h : outcome (sequence inBraces start soFar c hc) = .ok (nodes', next)) :
    EndsSequence inBraces next.rest := by
  match c, hc with
  | ⟨[], offset, depth⟩, hc =>
    rw [outcome_sequence_nil] at h
    cases h
    exact endsSequence_nil
  | ⟨r :: rest, offset, depth⟩, hc =>
    by_cases hends : (inBraces && endsAlternative r) = true
    · rw [outcome_sequence_ends hends] at h
      cases h
      exact endsSequence_cons hends
    · rw [Bool.not_eq_true] at hends
      rcases hitem : outcome (item inBraces r rest offset depth) with e | ⟨node, mid⟩
      · rw [outcome_sequence_of_error hends hitem] at h
        cases h
      · obtain ⟨hlt, heq⟩ := outcome_sequence_of_ok hends hitem
        rw [heq] at h
        exact endsSequence_of_outcome h
termination_by c.rest.length
decreasing_by exact hlt

mutual

theorem comesTo_item {r : Char} {rest : List Char} {offset depth : Nat} {nodes : List Node}
    {groups : List OpenGroup} (hr : (!groups.isEmpty && endsAlternative r) = false) :
    ComesTo ⟨⟨r :: rest, offset, depth⟩, .sequence, nodes, groups⟩
      (outcome (item (!groups.isEmpty) r rest offset depth))
      fun node next ↦ ⟨next, .sequence, node :: nodes, groups⟩ := by
  have hstep := @step_eq_startItem r rest offset depth nodes groups hr
  by_cases hstart : startsItem r = true
  · rw [startsItem_iff] at hstart
    simp only [List.mem_cons, List.not_mem_nil, or_false] at hstart
    rcases hstart with rfl | rfl | rfl | rfl | rfl
    · rw [outcome_item_slash]
      exact reaches_of_step hstep
    · by_cases hstar : rest.head? = some '*'
      · obtain ⟨rest, rfl⟩ := List.head?_eq_some_iff.mp hstar
        rw [outcome_item_globstar]
        exact reaches_of_step hstep
      · rw [outcome_item_anyText hstar]
        refine reaches_of_step (hstep.trans ?_)
        simp only [startItem]
        split
        · exact absurd rfl hstar
        · rfl
    · rw [outcome_item_anyChar]
      exact reaches_of_step hstep
    · by_cases hdepth : maxGroupDepth ≤ depth
      · rw [outcome_item_tooDeep hdepth]
        refine leadsTo_of_step (hstep.trans ?_)
        simp only [startItem, openGroup, if_pos hdepth]
      · -- the alternatives are read one level deeper and the level is given back behind them
        rw [outcome_item_braces (Nat.not_le.mp hdepth), comesTo_map]
        refine comesTo_of_step (hstep.trans ?_) comesTo_alternatives
        simp only [startItem, openGroup, if_neg hdepth]
    · rw [outcome_item_bracket]
      exact comesTo_bracketClass
  · rw [Bool.not_eq_true] at hstart
    rw [outcome_item_literal hstart]
    refine comesTo_of_step (hstep.trans ?_) comesTo_literal
    simp only [startsItem, Bool.or_eq_false_iff, decide_eq_false_iff_not] at hstart
    rw [startItem]
    · rfl
    all_goals intro heq
    all_goals simp_all
termination_by (rest.length + 1, 0)

theorem comesTo_sequence {c start : Cursor} {nodes : List Node} {groups : List OpenGroup}
    {hc : c.rest.length ≤ start.rest.length} :
    ComesTo ⟨c, .sequence, nodes, groups⟩ (outcome (sequence (!groups.isEmpty) start nodes c hc))
      fun nodes next ↦ ⟨next, .sequence, nodes.reverse, groups⟩ := by
  match c, hc with
  | ⟨[], offset, depth⟩, hc =>
    rw [outcome_sequence_nil, ComesTo, List.reverse_reverse]
    exact .refl
  | ⟨r :: rest, offset, depth⟩, hc =>
    by_cases hends : (!groups.isEmpty && endsAlternative r) = true
    · rw [outcome_sequence_ends hends, ComesTo, List.reverse_reverse]
      exact .refl
    · rw [Bool.not_eq_true] at hends
      have hitem := @comesTo_item r rest offset depth nodes groups hends
      rcases houtcome : outcome (item (!groups.isEmpty) r rest offset depth) with e | ⟨node, next⟩
      · rw [outcome_sequence_of_error hends houtcome]
        rwa [houtcome] at hitem
      · obtain ⟨hlt, heq⟩ := outcome_sequence_of_ok hends houtcome
        rw [heq]
        rw [houtcome] at hitem
        exact .of_reaches hitem comesTo_sequence
termination_by (c.rest.length, 1)

/-- The alternatives of a group are read up to its closing brace, and behind it the loop of the
sequence around the group goes on. -/
theorem comesTo_alternatives {c brace : Cursor} {soFar : List (List Node)} {before : List Node}
    {groups : List OpenGroup} {hc : c.rest.length < brace.rest.length} :
    ComesTo ⟨c, .sequence, [], ⟨brace, soFar, before⟩ :: groups⟩
      (outcome (alternatives brace soFar c hc))
      fun alts next ↦
        ⟨⟨next.rest, next.offset, next.depth - 1⟩, .sequence, .oneOf alts :: before, groups⟩ := by
  have hsequence : ComesTo ⟨c, .sequence, [], ⟨brace, soFar, before⟩ :: groups⟩
      (outcome (sequence true c [] c (Nat.le_refl _)))
      fun nodes next ↦ ⟨next, .sequence, nodes.reverse, ⟨brace, soFar, before⟩ :: groups⟩ :=
    comesTo_sequence
  rcases halt : outcome (sequence true c [] c (Nat.le_refl _)) with
    e | ⟨alt, ⟨rest, offset, depth⟩⟩
  · rw [outcome_alternatives_of_error halt]
    rwa [halt] at hsequence
  · have hend := endsSequence_of_outcome halt
    rw [halt] at hsequence
    rcases rest with _ | ⟨r, rest⟩
    · rw [outcome_alternatives_end halt]
      exact hsequence.leadsTo (leadsTo_of_step rfl)
    · have hr : endsAlternative r = true := hend r rfl
      let m : Reader :=
        ⟨⟨r :: rest, offset, depth⟩, .sequence, alt.reverse, ⟨brace, soFar, before⟩ :: groups⟩
      have hstep :
          m.step = m.endAlternative ⟨brace, soFar, before⟩ groups r rest offset depth := by
        simp only [m, step, stepSequence, hr, if_true]
      simp only [m, endAlternative, List.reverse_reverse] at hstep
      -- a comma goes on with the next alternative, a closing brace leaves the group
      rcases endsAlternative_iff.mp hr with rfl | rfl
      · obtain ⟨hlt, heq⟩ := outcome_alternatives_comma halt
        rw [heq]
        exact .of_reaches hsequence (comesTo_of_step hstep comesTo_alternatives)
      · rw [outcome_alternatives_close (by decide) halt]
        rw [if_neg (by decide), List.isEmpty_reverse] at hstep
        split
        · next hempty =>
          rw [if_pos hempty] at hstep
          exact hsequence.leadsTo (leadsTo_of_step hstep)
        · next hempty =>
          rw [if_neg hempty] at hstep
          exact hsequence.trans (reaches_of_step hstep)
termination_by (c.rest.length, 2)

end

/-! ## Whole texts -/

/-- **The reader reads.** The steps of the reader of a text lead to the pattern of the text, or to
the error with which it is refused. -/
theorem Reader.leadsTo_ofRunes (text : List Char) :
    (start text).LeadsTo (.done (Pattern.ofRunes text)) := by
  have hsequence : ComesTo (start text)
      (outcome (sequence false (.ofText text) [] (.ofText text) (Nat.le_refl _)))
      fun nodes next ↦ ⟨next, .sequence, nodes.reverse, []⟩ := comesTo_sequence
  rw [Pattern.ofRunes]
  rcases houtcome : outcome (sequence false (.ofText text) [] (.ofText text) (Nat.le_refl _)) with
    e | ⟨nodes, next⟩
  · rw [houtcome] at hsequence
    rw [outcome_eq_error.mp houtcome]
    exact hsequence
  · have hend := (endsSequence_of_outcome houtcome).eq_nil
    rw [houtcome] at hsequence
    obtain ⟨_, hreads⟩ := outcome_eq_ok.mp houtcome
    obtain ⟨_, offset, depth⟩ := next
    cases hend
    rw [hreads]
    refine hsequence.leadsTo (leadsTo_of_step ?_)
    simp only [step, stepSequence, List.reverse_reverse]
    rfl

end PathGlob.Reading
