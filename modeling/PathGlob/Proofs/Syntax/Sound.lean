import PathGlob.Proofs.Syntax.Heads
import PathGlob.Proofs.Syntax.Outcome

/-!
# Whatever is read is in the grammar

If reading succeeds then the runes that it passed are a text of the grammar, and the value that it
gives is what this text stands for. The grammar asks of two neighbours that they could not have been
read otherwise, so besides its text each reading also says where it stopped: a literal before a rune
that ends literals, a single star before no other star, a sequence at the end of the text or before
a rune that ends an alternative.

The proofs recurse as the functions do. A brace group gives its level back, so the depth at the end
of a reading is the depth at its start, and the levels that are left follow from the depth.
-/

namespace PathGlob.Reading

open Cursor Grammar

variable {inBraces : Bool} {r : Char} {rest : List Char} {offset depth levels : Nat}
  {c start next : Cursor} {node : Node}

/-! ## Runes and classes -/

theorem spelling_of_outcome (special : Char → Prop) {r' : Char}
    (hr : ¬special r) (h : outcome (rune r rest offset depth) = .ok (r', next)) :
    ∃ text, Passes ⟨r :: rest, offset, depth⟩ text next ∧ Spelling special text r' := by
  by_cases hbackslash : r = '\\'
  · subst hbackslash
    cases rest with
    | nil =>
      rw [outcome_rune_dangling] at h
      cases h
    | cons escaped rest =>
      rw [outcome_rune_escaped] at h
      cases h
      exact ⟨_, passes_rune.trans passes_rune, .escaped _⟩
  · rw [outcome_rune hbackslash] at h
    cases h
    exact ⟨[r], passes_rune, .bare hr hbackslash⟩

theorem member_of_outcome (h : outcome (member ⟨r :: rest, offset, depth⟩) = .ok (node, next))
    (hr : r ≠ ']') :
    (∃ text lo, Passes ⟨r :: rest, offset, depth⟩ text next ∧ ClassRune text lo ∧
        node = .literal [lo] ∧ ∀ r rest, next.rest = '-' :: r :: rest → r = ']') ∨
      ∃ first last lo hi, Passes ⟨r :: rest, offset, depth⟩ (first ++ '-' :: last) next ∧
        ClassRune first lo ∧ ClassRune last hi ∧ lo ≤ hi ∧ node = .range lo hi := by
  rcases hlo : outcome (classRune ⟨r :: rest, offset, depth⟩) with e | ⟨lo, mid⟩
  · rw [outcome_member_of_error hlo] at h
    cases h
  · obtain ⟨first, hpasses, hfirst⟩ := spelling_of_outcome (· = ']') hr hlo
    by_cases hdash : ∀ r rest, mid.rest = '-' :: r :: rest → r = ']'
    · rw [outcome_member_single hlo hdash] at h
      cases h
      exact .inl ⟨first, lo, hpasses, hfirst, rfl, hdash⟩
    · obtain ⟨r', rest', hmid, hr'⟩ : ∃ r' rest', mid.rest = '-' :: r' :: rest' ∧ r' ≠ ']' := by
        simpa using hdash
      obtain ⟨_, offset', depth'⟩ := mid
      cases hmid
      rw [outcome_member_range hlo hr'] at h
      rcases hhi : outcome (classRune ⟨r' :: rest', offset' + 1, depth'⟩) with e | ⟨hi, last⟩
      · rw [hhi] at h
        cases h
      · obtain ⟨text, hpasses', htext⟩ := spelling_of_outcome (· = ']') hr' hhi
        rw [hhi] at h
        by_cases hle : hi < lo
        · simp only [Except.bind, if_pos hle] at h
          cases h
        · simp only [Except.bind, if_neg hle] at h
          cases h
          refine .inr ⟨first, text, lo, hi, ?_, hfirst, htext, Char.not_lt.mp hle, rfl⟩
          exact hpasses.trans (passes_rune.trans hpasses')

theorem membersText_of_outcome {c start : Cursor} {soFar members' : List (List Node)}
    {hc : c.rest.length < start.rest.length}
    (h : outcome (members start soFar c hc) = .ok (members', next)) :
    ∃ text members, members' = soFar.reverse ++ members ∧ c.Passes (text ++ [']']) next ∧
      MembersText text members ∧ (soFar = [] → members ≠ []) := by
  match c, hc with
  | ⟨[], offset, depth⟩, hc =>
    rw [outcome_members_nil] at h
    cases h
  | ⟨r :: rest, offset, depth⟩, hc =>
    by_cases hr : r = ']'
    · subst hr
      rw [outcome_members_close] at h
      cases soFar with
      | nil => cases h
      | cons member soFar =>
        cases h
        exact ⟨[], [], by simp, passes_rune, .nil, by simp⟩
    · rcases hmember : outcome (member ⟨r :: rest, offset, depth⟩) with e | ⟨node, mid⟩
      · rw [outcome_members_of_error hr hmember] at h
        cases h
      · obtain ⟨hlt, heq⟩ := outcome_members_of_ok hr hmember
        rw [heq] at h
        obtain ⟨text, members, rfl, hpasses, htext, -⟩ := membersText_of_outcome h
        rcases member_of_outcome hmember hr with
          ⟨first, lo, hfirst, hspelling, rfl, hdash⟩ |
            ⟨first, last, lo, hi, hfirst, hlo, hhi, hle, rfl⟩
        · refine ⟨first ++ text, [.literal [lo]] :: members, by simp, ?_, .rune hspelling htext ?_,
            by simp⟩
          · rw [List.append_assoc]
            exact hfirst.trans hpasses
          · -- behind the dash the class would have to close, but a member starts there
            rintro r rest rfl
            refine htext.head_behind_dash (hdash r (rest ++ ']' :: next.rest) ?_)
            rw [hpasses.rest_eq]
            simp
        · refine ⟨first ++ '-' :: (last ++ text), [.range lo hi] :: members, by simp, ?_,
            .range hlo hhi hle htext, by simp⟩
          have hwhole := hfirst.trans hpasses
          simpa using hwhole
termination_by c.rest.length
decreasing_by exact hlt

/-- A class has members and is negated exactly by a mark directly behind its opening bracket. -/
theorem itemText_of_outcome_bracketClass
    (h : outcome (bracketClass rest offset depth) = .ok (node, next)) :
    ∃ text, Passes ⟨'[' :: rest, offset, depth⟩ text next ∧
      ItemText levels inBraces text node ∧ ∃ alts, node = .oneOf alts ∨ node = .noneOf alts := by
  by_cases hmark : rest.head? = some '!'
  · obtain ⟨rest, rfl⟩ := List.head?_eq_some_iff.mp hmark
    rw [outcome_bracketClass_negated, map_eq_ok] at h
    obtain ⟨⟨alts, last⟩, hmembers, heq⟩ := h
    cases heq
    obtain ⟨text, members, heq, hpasses, htext, hne⟩ := membersText_of_outcome hmembers
    obtain rfl : alts = members := heq
    have hopen : Passes ⟨'[' :: '!' :: rest, offset, depth⟩ ['[', '!']
        ⟨rest, offset + 2, depth⟩ := passes_rune.trans passes_rune
    exact ⟨_, hopen.trans hpasses, .negated htext (hne rfl), alts, .inr rfl⟩
  · rw [outcome_bracketClass hmark, map_eq_ok] at h
    obtain ⟨⟨alts, last⟩, hmembers, heq⟩ := h
    cases heq
    obtain ⟨text, members, heq, hpasses, htext, hne⟩ := membersText_of_outcome hmembers
    obtain rfl : alts = members := heq
    refine ⟨_, passes_rune.trans hpasses, .positive htext (hne rfl) ?_, alts, .inl rfl⟩
    intro hhead
    have hrest : rest = text ++ [']'] ++ next.rest := hpasses.rest_eq
    rw [hrest] at hmark
    simp [hhead] at hmark

/-! ## Literals -/

theorem literalText_of_outcome {c start : Cursor} {soFar : List Char}
    {hc : c.rest.length < start.rest.length}
    (h : outcome (literalTail inBraces start soFar c hc) = .ok (node, next)) :
    ∃ text runes, node = .literal (soFar.reverse ++ runes) ∧ c.Passes text next ∧
      LiteralText inBraces text runes ∧ ∀ r ∈ next.rest.head?, endsLiteral inBraces r = true := by
  match c, hc with
  | ⟨[], offset, depth⟩, hc =>
    rw [outcome_literalTail_nil] at h
    cases h
    exact ⟨[], [], by simp, passes_nil.mpr rfl, .nil, by simp⟩
  | ⟨r :: rest, offset, depth⟩, hc =>
    by_cases hends : endsLiteral inBraces r = true
    · rw [outcome_literalTail_ends hends] at h
      cases h
      refine ⟨[], [], by simp, passes_nil.mpr rfl, .nil, ?_⟩
      rintro r' hr'
      cases hr'
      exact hends
    · have hspecial : ¬SpecialInLiteral inBraces r := mt specialInLiteral_iff.mp hends
      rw [Bool.not_eq_true] at hends
      rcases hrune : outcome (rune r rest offset depth) with e | ⟨r', mid⟩
      · rw [outcome_literalTail_of_error hends hrune] at h
        cases h
      · obtain ⟨hlt, heq⟩ := outcome_literalTail_of_ok hends hrune
        rw [heq] at h
        obtain ⟨first, hfirst, hspelling⟩ := spelling_of_outcome _ hspecial hrune
        obtain ⟨text, runes, rfl, hpasses, htext, hend⟩ := literalText_of_outcome h
        exact ⟨first ++ text, r' :: runes, by simp, hfirst.trans hpasses, .cons hspelling htext,
          hend⟩
termination_by c.rest.length
decreasing_by exact hlt

theorem itemText_of_outcome_literal (hr : endsLiteral inBraces r = false)
    (h : outcome (literal inBraces r rest offset depth) = .ok (node, next)) :
    ∃ text runes, Passes ⟨r :: rest, offset, depth⟩ text next ∧
      ItemText levels inBraces text node ∧ node = .literal runes ∧
      ∀ r ∈ next.rest.head?, endsLiteral inBraces r = true := by
  have hspecial : ¬SpecialInLiteral inBraces r := by
    rw [specialInLiteral_iff, hr]
    exact Bool.false_ne_true
  rcases hrune : outcome (rune r rest offset depth) with e | ⟨r', mid⟩
  · rw [outcome_literal_of_error hrune] at h
    cases h
  · obtain ⟨hmid, heq⟩ := outcome_literal_of_ok hrune
    rw [heq] at h
    obtain ⟨first, hfirst, hspelling⟩ := spelling_of_outcome _ hspecial hrune
    obtain ⟨text, runes, rfl, hpasses, htext, hend⟩ := literalText_of_outcome h
    exact ⟨first ++ text, r' :: runes, hfirst.trans hpasses,
      .literal (.cons hspelling htext) (List.cons_ne_nil _ _), rfl, hend⟩

/-! ## Items, sequences and alternatives -/

mutual

theorem itemText_of_outcome {inBraces : Bool} {r : Char} {rest : List Char}
    {offset depth levels : Nat} {node : Node} {next : Cursor}
    (hlevels : levels + depth = maxGroupDepth) (hr : (inBraces && endsAlternative r) = false)
    (h : outcome (item inBraces r rest offset depth) = .ok (node, next)) :
    ∃ text, Passes ⟨r :: rest, offset, depth⟩ text next ∧
      ItemText levels inBraces text node ∧ node.Stops inBraces next.rest := by
  by_cases hstart : startsItem r = true
  · rw [startsItem_iff] at hstart
    simp only [List.mem_cons, List.not_mem_nil, or_false] at hstart
    rcases hstart with rfl | rfl | rfl | rfl | rfl
    · rw [outcome_item_slash] at h
      cases h
      exact ⟨['/'], passes_rune, .slash, trivial⟩
    · by_cases hstar : rest.head? = some '*'
      · obtain ⟨rest, rfl⟩ := List.head?_eq_some_iff.mp hstar
        rw [outcome_item_globstar] at h
        cases h
        exact ⟨['*', '*'], passes_rune.trans passes_rune, .globstar, trivial⟩
      · rw [outcome_item_anyText hstar] at h
        cases h
        exact ⟨['*'], passes_rune, .anyText, hstar⟩
    · rw [outcome_item_anyChar] at h
      cases h
      exact ⟨['?'], passes_rune, .anyChar, trivial⟩
    · by_cases hdepth : maxGroupDepth ≤ depth
      · rw [outcome_item_tooDeep hdepth] at h
        cases h
      · rw [outcome_item_braces (Nat.not_le.mp hdepth), map_eq_ok] at h
        obtain ⟨⟨alts, last⟩, halts, heq⟩ := h
        cases heq
        -- the group takes one of the levels that are left, and its depth says that there is one
        obtain ⟨levels, rfl⟩ : ∃ inner, levels = inner + 1 := ⟨levels - 1, by omega⟩
        have hinner : levels + (depth + 1) = maxGroupDepth := by omega
        obtain ⟨text, alts', heq, hpasses, htext, hne⟩ :=
          alternativesText_of_outcome hinner halts
        obtain rfl : alts = alts' := heq
        have hopen : Passes ⟨'\x7b' :: rest, offset, depth⟩ ['\x7b'] ⟨rest, offset + 1, depth⟩ :=
          passes_rune
        exact ⟨_, hopen.trans hpasses.shallower, .braces htext (hne rfl), trivial⟩
    · rw [outcome_item_bracket] at h
      obtain ⟨text, hpasses, htext, alts, rfl | rfl⟩ := itemText_of_outcome_bracketClass h
      · exact ⟨text, hpasses, htext, trivial⟩
      · exact ⟨text, hpasses, htext, trivial⟩
  · rw [Bool.not_eq_true] at hstart
    rw [outcome_item_literal hstart] at h
    obtain ⟨text, runes, hpasses, htext, rfl, hend⟩ :=
      itemText_of_outcome_literal (endsLiteral_eq_false.mpr ⟨hstart, hr⟩) h
    exact ⟨text, hpasses, htext, hend⟩
termination_by (rest.length + 1, 0)

/-- What is read as a sequence is one, and it stops where the sequence ends. -/
theorem sequenceText_of_outcome {inBraces : Bool} {c start next : Cursor} {soFar nodes' : List Node}
    {levels : Nat} {hc : c.rest.length ≤ start.rest.length}
    (hlevels : levels + c.depth = maxGroupDepth)
    (h : outcome (sequence inBraces start soFar c hc) = .ok (nodes', next)) :
    ∃ text nodes, nodes' = soFar.reverse ++ nodes ∧ c.Passes text next ∧
      SequenceText levels inBraces text nodes ∧ EndsSequence inBraces next.rest := by
  match c, hc with
  | ⟨[], offset, depth⟩, hc =>
    rw [outcome_sequence_nil] at h
    cases h
    exact ⟨[], [], by simp, passes_nil.mpr rfl, .nil, endsSequence_nil⟩
  | ⟨r :: rest, offset, depth⟩, hc =>
    by_cases hends : (inBraces && endsAlternative r) = true
    · rw [outcome_sequence_ends hends] at h
      cases h
      exact ⟨[], [], by simp, passes_nil.mpr rfl, .nil, endsSequence_cons hends⟩
    · rw [Bool.not_eq_true] at hends
      rcases hitem : outcome (item inBraces r rest offset depth) with e | ⟨node, mid⟩
      · rw [outcome_sequence_of_error hends hitem] at h
        cases h
      · obtain ⟨hlt, heq⟩ := outcome_sequence_of_ok hends hitem
        rw [heq] at h
        obtain ⟨first, hfirst, hnode, hstops⟩ := itemText_of_outcome hlevels hends hitem
        have hmid : levels + mid.depth = maxGroupDepth := by rw [hfirst.depth_eq, hlevels]
        obtain ⟨text, nodes, rfl, hpasses, htext, hend⟩ := sequenceText_of_outcome hmid h
        -- where the item stopped, the grammar allows what was read next beside it
        rw [hpasses.rest_eq, htext.stops_iff hend] at hstops
        exact ⟨first ++ text, node :: nodes, by simp, hfirst.trans hpasses,
          .cons hnode htext hstops.1 hstops.2, hend⟩
termination_by (c.rest.length, 1)

theorem alternativesText_of_outcome {c start next : Cursor} {soFar alts' : List (List Node)}
    {levels : Nat} {hc : c.rest.length < start.rest.length}
    (hlevels : levels + c.depth = maxGroupDepth)
    (h : outcome (alternatives start soFar c hc) = .ok (alts', next)) :
    ∃ text alts, alts' = soFar.reverse ++ alts ∧ c.Passes (text ++ ['\x7d']) next ∧
      AlternativesText levels text alts ∧ (soFar = [] → text ≠ []) := by
  rcases halt : outcome (sequence true c [] c (Nat.le_refl _)) with e | ⟨alt, rest, offset, depth⟩
  · rw [outcome_alternatives_of_error halt] at h
    cases h
  · obtain ⟨first, alt', heq, hfirst, hsequence, hend⟩ := sequenceText_of_outcome hlevels halt
    obtain rfl : alt = alt' := heq
    rcases rest with _ | ⟨r, rest⟩
    · rw [outcome_alternatives_end halt] at h
      cases h
    · have hr : endsAlternative r = true := hend r rfl
      rcases endsAlternative_iff.mp hr with rfl | rfl
      · obtain ⟨hlt, heq⟩ := outcome_alternatives_comma halt
        rw [heq] at h
        have hmid : levels + depth = maxGroupDepth := by rw [← hlevels, ← hfirst.depth_eq]
        obtain ⟨text, alts, rfl, hpasses, htext, -⟩ := alternativesText_of_outcome hmid h
        refine ⟨first ++ ',' :: text, alt :: alts, by simp, ?_, .cons hsequence htext, by simp⟩
        have hwhole := hfirst.trans (passes_rune.trans hpasses)
        rwa [List.append_assoc]
      · rw [outcome_alternatives_close (by decide) halt] at h
        split at h
        · cases h
        · next hempty =>
          cases h
          refine ⟨first, [alt], by simp, hfirst.trans passes_rune, .one hsequence, ?_⟩
          rintro rfl rfl
          rw [hsequence.nodes_eq_nil] at hempty
          exact hempty rfl
termination_by (c.rest.length, 2)

end

end PathGlob.Reading
