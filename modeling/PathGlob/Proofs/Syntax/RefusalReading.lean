import PathGlob.Proofs.Syntax.Refusal

/-!
# Reading refuses what the grammar of refused texts says

If reading fails then the text at hand is refused with the error that reading gives, and if a text
is refused then reading gives its error, whatever was read before. The proofs follow those for the
texts that are in order, which are used for the pieces before the fault.

Main statement: `Pattern.ofRunes_eq_error`, the texts that reading refuses and their errors.
-/

namespace PathGlob.Reading

open Cursor Grammar

variable {inBraces : Bool} {r : Char} {rest : List Char} {offset depth levels : Nat}
  {c start next : Cursor} {e : CompileError}

/-! ## Errors are as the grammar says: runes, classes and literals -/

theorem rune_eq_error (h : outcome (rune r rest offset depth) = .error e) :
    r = '\\' ∧ rest = [] ∧ e = .unexpectedEnd offset := by
  by_cases hr : r = '\\'
  · subst hr
    cases rest with
    | nil =>
      rw [outcome_rune_dangling] at h
      cases h
      exact ⟨rfl, rfl, rfl⟩
    | cons escaped rest =>
      rw [outcome_rune_escaped] at h
      cases h
  · rw [outcome_rune hr] at h
    cases h

theorem memberRefused_of_outcome (hr : r ≠ ']')
    (h : outcome (member ⟨r :: rest, offset, depth⟩) = .error e) :
    ∃ viable bad, r :: rest = viable ++ bad ∧ MemberRefused offset viable bad e := by
  rcases hlo : outcome (classRune ⟨r :: rest, offset, depth⟩) with e' | ⟨lo, mid⟩
  · rw [outcome_member_of_error hlo] at h
    cases h
    obtain ⟨rfl, rfl, rfl⟩ := rune_eq_error hlo
    exact ⟨['\\'], [], rfl, .dangling⟩
  · obtain ⟨first, hpasses, hfirst⟩ := spelling_of_outcome (· = ']') hr hlo
    -- behind a single rune nothing can go wrong, so there is a dash and an upper bound
    by_cases hdash : ∀ r rest, mid.rest = '-' :: r :: rest → r = ']'
    · rw [outcome_member_single hlo hdash] at h
      cases h
    · obtain ⟨r', rest', hmid, hr'⟩ : ∃ r' rest', mid.rest = '-' :: r' :: rest' ∧ r' ≠ ']' := by
        simpa using hdash
      obtain ⟨_, offset', depth'⟩ := mid
      cases hmid
      have hrest : r :: rest = first ++ '-' :: r' :: rest' := hpasses.rest_eq
      obtain rfl : offset' = offset + first.length := hpasses.offset_eq
      rw [outcome_member_range hlo hr'] at h
      rcases hhi : outcome (classRune ⟨r' :: rest', offset + first.length + 1, depth'⟩) with
        e' | ⟨hi, last⟩
      · rw [hhi] at h
        cases h
        obtain ⟨rfl, rfl, rfl⟩ := rune_eq_error hhi
        exact ⟨first ++ ['-', '\\'], [], by simpa using hrest, .danglingBound hfirst⟩
      · obtain ⟨text, hpasses', htext⟩ := spelling_of_outcome (· = ']') hr' hhi
        rw [hhi] at h
        by_cases hlt : hi < lo
        · simp only [Except.bind, if_pos hlt] at h
          cases h
          have hbound : r' :: rest' = text ++ last.rest := hpasses'.rest_eq
          rw [hbound] at hrest
          exact ⟨first ++ ['-'], text ++ last.rest, by simpa using hrest,
            .backwards hfirst htext hlt⟩
        · simp only [Except.bind, if_neg hlt] at h
          cases h

/-- Reading members fails as a class is refused, and does not fail at a closing bracket behind a
member. -/
theorem classRefused_of_outcome_members {c start : Cursor} {soFar : List (List Node)}
    {hc : c.rest.length < start.rest.length}
    (h : outcome (members start soFar c hc) = .error e) :
    (∃ viable bad, c.rest = viable ++ bad ∧ ClassRefused c.offset viable bad e) ∧
      (c.rest.head? = some ']' → soFar = []) := by
  match c, hc with
  | ⟨[], offset, depth⟩, hc =>
    rw [outcome_members_nil] at h
    cases h
    exact ⟨⟨[], [], rfl, .unclosed .nil⟩, nofun⟩
  | ⟨r :: rest, offset, depth⟩, hc =>
    by_cases hr : r = ']'
    · subst hr
      rw [outcome_members_close] at h
      cases soFar with
      | nil =>
        cases h
        exact ⟨⟨[], ']' :: rest, rfl, .empty⟩, fun _ ↦ rfl⟩
      | cons member soFar => cases h
    · refine ⟨?_, fun hhead ↦ absurd (Option.some.inj hhead) hr⟩
      rcases hmember : outcome (member ⟨r :: rest, offset, depth⟩) with e' | ⟨node, mid⟩
      · rw [outcome_members_of_error hr hmember] at h
        cases h
        obtain ⟨viable, bad, heq, hrefused⟩ := memberRefused_of_outcome hr hmember
        exact ⟨viable, bad, heq, .member (.here hrefused)⟩
      · obtain ⟨hlt, heq⟩ := outcome_members_of_ok hr hmember
        rw [heq] at h
        obtain ⟨⟨viable, bad, hmid, hrefused⟩, hclose⟩ := classRefused_of_outcome_members h
        -- a member was read, so the class may close here and would not be refused for it
        have hclose' : (viable ++ bad).head? ≠ some ']' :=
          hmid ▸ fun hhead ↦ List.cons_ne_nil _ _ (hclose hhead)
        rcases member_of_outcome hmember hr with
          ⟨first, lo, hfirst, hspelling, rfl, hdash⟩ |
            ⟨first, last, lo, hi, hfirst, hlo, hhi, hle, rfl⟩
        · rw [hfirst.offset_eq] at hrefused
          rw [hmid] at hdash
          refine ⟨first ++ viable, bad, ?_, hrefused.behindRune hspelling hclose' hdash⟩
          rw [hfirst.rest_eq, hmid, List.append_assoc]
        · have hoffset : mid.offset = offset + first.length + 1 + last.length := by
            have hpassed := hfirst.offset_eq
            simp only [List.length_append, List.length_cons] at hpassed
            omega
          rw [hoffset] at hrefused
          refine ⟨first ++ '-' :: (last ++ viable), bad, ?_,
            hrefused.behindRange hlo hhi hle hclose'⟩
          rw [hfirst.rest_eq, hmid]
          simp
termination_by c.rest.length
decreasing_by exact hlt

theorem itemRefused_of_outcome_bracketClass
    (h : outcome (bracketClass rest offset depth) = .error e) :
    ∃ viable bad, '[' :: rest = viable ++ bad ∧
      ItemRefused levels inBraces offset viable bad e := by
  by_cases hmark : rest.head? = some '!'
  · obtain ⟨rest, rfl⟩ := List.head?_eq_some_iff.mp hmark
    rw [outcome_bracketClass_negated, map_eq_error] at h
    obtain ⟨⟨viable, bad, heq, hrefused⟩, -⟩ := classRefused_of_outcome_members h
    obtain rfl : rest = viable ++ bad := heq
    exact ⟨'[' :: '!' :: viable, bad, rfl, .negated hrefused⟩
  · rw [outcome_bracketClass hmark, map_eq_error] at h
    obtain ⟨⟨viable, bad, heq, hrefused⟩, -⟩ := classRefused_of_outcome_members h
    obtain rfl : rest = viable ++ bad := heq
    exact ⟨'[' :: viable, bad, rfl, .positive hrefused hmark⟩

theorem literalText_of_outcome_error {c start : Cursor} {soFar : List Char}
    {hc : c.rest.length < start.rest.length}
    (h : outcome (literalTail inBraces start soFar c hc) = .error e) :
    ∃ text runes, c.rest = text ++ ['\\'] ∧ LiteralText inBraces text runes ∧
      e = .unexpectedEnd (c.offset + text.length) := by
  match c, hc with
  | ⟨[], offset, depth⟩, hc =>
    rw [outcome_literalTail_nil] at h
    cases h
  | ⟨r :: rest, offset, depth⟩, hc =>
    by_cases hends : endsLiteral inBraces r = true
    · rw [outcome_literalTail_ends hends] at h
      cases h
    · have hspecial : ¬SpecialInLiteral inBraces r := mt specialInLiteral_iff.mp hends
      rw [Bool.not_eq_true] at hends
      rcases hrune : outcome (rune r rest offset depth) with e' | ⟨r', mid⟩
      · rw [outcome_literalTail_of_error hends hrune] at h
        cases h
        obtain ⟨rfl, rfl, rfl⟩ := rune_eq_error hrune
        exact ⟨[], [], rfl, .nil, rfl⟩
      · obtain ⟨hlt, heq⟩ := outcome_literalTail_of_ok hends hrune
        rw [heq] at h
        obtain ⟨first, hfirst, hspelling⟩ := spelling_of_outcome _ hspecial hrune
        obtain ⟨text, runes, hmid, htext, rfl⟩ := literalText_of_outcome_error h
        refine ⟨first ++ text, r' :: runes, ?_, .cons hspelling htext, ?_⟩
        · rw [hfirst.rest_eq, hmid, List.append_assoc]
        · rw [hfirst.offset_eq, List.length_append, Nat.add_assoc]
termination_by c.rest.length
decreasing_by exact hlt

theorem itemRefused_of_outcome_literal (hr : endsLiteral inBraces r = false)
    (h : outcome (literal inBraces r rest offset depth) = .error e) :
    ∃ viable bad, r :: rest = viable ++ bad ∧ ItemRefused levels inBraces offset viable bad e := by
  have hspecial : ¬SpecialInLiteral inBraces r := by
    rw [specialInLiteral_iff, hr]
    exact Bool.false_ne_true
  rcases hrune : outcome (rune r rest offset depth) with e' | ⟨r', mid⟩
  · rw [outcome_literal_of_error hrune] at h
    cases h
    obtain ⟨rfl, rfl, rfl⟩ := rune_eq_error hrune
    exact ⟨[] ++ ['\\'], [], rfl, .literal .nil⟩
  · obtain ⟨hmid, heq⟩ := outcome_literal_of_ok hrune
    rw [heq] at h
    obtain ⟨first, hfirst, hspelling⟩ := spelling_of_outcome _ hspecial hrune
    obtain ⟨text, runes, hrest, htext, rfl⟩ := literalText_of_outcome_error h
    have hwhole : r :: rest = first ++ text ++ ['\\'] := by
      rw [List.append_assoc, ← hrest]
      exact hfirst.rest_eq
    rw [hfirst.offset_eq, Nat.add_assoc, ← List.length_append]
    exact ⟨first ++ text ++ ['\\'], [], by rw [hwhole, List.append_nil],
      .literal (.cons hspelling htext)⟩

/-! ## Errors are as the grammar says: items, sequences and alternatives -/

mutual

theorem itemRefused_of_outcome {inBraces : Bool} {r : Char} {rest : List Char}
    {offset depth levels : Nat} {e : CompileError} (hlevels : levels + depth = maxGroupDepth)
    (hr : (inBraces && endsAlternative r) = false)
    (h : outcome (item inBraces r rest offset depth) = .error e) :
    ∃ viable bad, r :: rest = viable ++ bad ∧ ItemRefused levels inBraces offset viable bad e := by
  by_cases hstart : startsItem r = true
  · rw [startsItem_iff] at hstart
    simp only [List.mem_cons, List.not_mem_nil, or_false] at hstart
    rcases hstart with rfl | rfl | rfl | rfl | rfl
    · rw [outcome_item_slash] at h
      cases h
    · by_cases hstar : rest.head? = some '*'
      · obtain ⟨rest, rfl⟩ := List.head?_eq_some_iff.mp hstar
        rw [outcome_item_globstar] at h
        cases h
      · rw [outcome_item_anyText hstar] at h
        cases h
    · rw [outcome_item_anyChar] at h
      cases h
    · by_cases hdepth : maxGroupDepth ≤ depth
      · rw [outcome_item_tooDeep hdepth] at h
        cases h
        -- the groups that are open have used up the levels
        obtain rfl : levels = 0 := by omega
        exact ⟨[], '\x7b' :: rest, rfl, .tooDeep⟩
      · rw [outcome_item_braces (Nat.not_le.mp hdepth), map_eq_error] at h
        obtain ⟨levels, rfl⟩ : ∃ inner, levels = inner + 1 := ⟨levels - 1, by omega⟩
        have hinner : levels + (depth + 1) = maxGroupDepth := by omega
        rcases alternativesRefused_of_outcome hinner h with
          ⟨viable, bad, heq, hrefused⟩ | ⟨-, rest, heq, rfl⟩
        · obtain rfl : rest = viable ++ bad := heq
          exact ⟨'\x7b' :: viable, bad, rfl, .braces hrefused⟩
        · cases heq
          exact ⟨['\x7b'], '\x7d' :: rest, rfl, .empty⟩
    · rw [outcome_item_bracket] at h
      exact itemRefused_of_outcome_bracketClass h
  · rw [Bool.not_eq_true] at hstart
    rw [outcome_item_literal hstart] at h
    exact itemRefused_of_outcome_literal (endsLiteral_eq_false.mpr ⟨hstart, hr⟩) h
termination_by (rest.length + 1, 0)

theorem sequenceRefused_of_outcome {inBraces : Bool} {c start : Cursor} {soFar : List Node}
    {levels : Nat} {e : CompileError} {hc : c.rest.length ≤ start.rest.length}
    (hlevels : levels + c.depth = maxGroupDepth)
    (h : outcome (sequence inBraces start soFar c hc) = .error e) :
    ∃ viable bad, c.rest = viable ++ bad ∧
      SequenceRefused levels inBraces c.offset viable bad e := by
  match c, hc with
  | ⟨[], offset, depth⟩, hc =>
    rw [outcome_sequence_nil] at h
    cases h
  | ⟨r :: rest, offset, depth⟩, hc =>
    by_cases hends : (inBraces && endsAlternative r) = true
    · rw [outcome_sequence_ends hends] at h
      cases h
    · rw [Bool.not_eq_true] at hends
      rcases hitem : outcome (item inBraces r rest offset depth) with e' | ⟨node, mid⟩
      · rw [outcome_sequence_of_error hends hitem] at h
        cases h
        obtain ⟨viable, bad, heq, hrefused⟩ := itemRefused_of_outcome hlevels hends hitem
        exact ⟨viable, bad, heq, .here hrefused⟩
      · obtain ⟨hlt, heq⟩ := outcome_sequence_of_ok hends hitem
        rw [heq] at h
        obtain ⟨first, hfirst, hnode, hstops⟩ := itemText_of_outcome hlevels hends hitem
        have hmid : levels + mid.depth = maxGroupDepth := by rw [hfirst.depth_eq, hlevels]
        obtain ⟨viable, bad, hrest, hrefused⟩ := sequenceRefused_of_outcome hmid h
        -- the item stopped before the text that is refused, as the grammar wants it
        rw [hrest] at hstops
        rw [hfirst.offset_eq] at hrefused
        refine ⟨first ++ viable, bad, ?_, .behind hnode hstops hrefused⟩
        rw [hfirst.rest_eq, hrest, List.append_assoc]
termination_by (c.rest.length, 1)

/-- Where reading alternatives fails, the text is refused for one of them or for its end, or else
there is nothing between the braces. -/
theorem alternativesRefused_of_outcome {c start : Cursor} {soFar : List (List Node)}
    {levels : Nat} {e : CompileError} {hc : c.rest.length < start.rest.length}
    (hlevels : levels + c.depth = maxGroupDepth)
    (h : outcome (alternatives start soFar c hc) = .error e) :
    (∃ viable bad, c.rest = viable ++ bad ∧ AlternativesRefused levels c.offset viable bad e) ∨
      soFar = [] ∧ ∃ rest, c.rest = '\x7d' :: rest ∧
        e = .expected .groupAlternative (some '\x7d') (start.offset + 1) := by
  rcases halt : outcome (sequence true c [] c (Nat.le_refl _)) with e' | ⟨alt, rest, offset, depth⟩
  · rw [outcome_alternatives_of_error halt] at h
    cases h
    obtain ⟨viable, bad, heq, hrefused⟩ := sequenceRefused_of_outcome hlevels halt
    exact .inl ⟨viable, bad, heq, .here hrefused⟩
  · obtain ⟨first, alt', heq, hfirst, hsequence, hend⟩ := sequenceText_of_outcome hlevels halt
    obtain rfl : alt = alt' := heq
    rcases rest with _ | ⟨r, rest⟩
    · rw [outcome_alternatives_end halt] at h
      cases h
      rw [show offset = c.offset + first.length from hfirst.offset_eq]
      exact .inl ⟨first, [], hfirst.rest_eq, .unclosed hsequence⟩
    · have hr : endsAlternative r = true := hend r rfl
      rcases endsAlternative_iff.mp hr with rfl | rfl
      · obtain ⟨hlt, heq⟩ := outcome_alternatives_comma halt
        rw [heq] at h
        have hmid : levels + depth = maxGroupDepth := by rw [← hlevels, ← hfirst.depth_eq]
        rcases alternativesRefused_of_outcome hmid h with
          ⟨viable, bad, hrest, hrefused⟩ | ⟨hnil, -⟩
        · obtain rfl : rest = viable ++ bad := hrest
          rw [show offset = c.offset + first.length from hfirst.offset_eq] at hrefused
          refine .inl ⟨first ++ ',' :: viable, bad, ?_, .behind hsequence hrefused⟩
          rw [hfirst.rest_eq, List.append_assoc]
          rfl
        · cases hnil
      · rw [outcome_alternatives_close (by decide) halt] at h
        split at h
        · next hempty =>
          cases h
          simp only [Bool.and_eq_true, List.isEmpty_iff] at hempty
          -- the only alternative holds no nodes, so the brace closes what was just opened
          obtain ⟨rfl, rfl⟩ := hempty
          obtain rfl := hsequence.text_eq_nil
          exact .inr ⟨rfl, rest, hfirst.rest_eq, rfl⟩
        · cases h
termination_by (c.rest.length, 2)

end

/-! ## Refused texts are refused: runes, classes and literals -/

theorem outcome_member_of_refused {viable bad : List Char}
    (h : MemberRefused offset viable bad e) :
    outcome (member ⟨viable ++ bad, offset, depth⟩) = .error e := by
  cases h with
  | dangling => exact outcome_member_of_error outcome_rune_dangling
  | danglingBound hfirst =>
    rw [List.append_nil]
    rw [outcome_member_range (outcome_classRune hfirst passes_of_append) (by decide),
      classRune_cons, outcome_rune_dangling]
    rfl
  | @backwards first last rest lo hi hfirst hlast hlt =>
    obtain ⟨r, more, rfl, hr⟩ := head_of_classRune hlast
    have hlo : outcome (classRune ⟨first ++ '-' :: (r :: more ++ rest), offset, depth⟩) =
        .ok (lo, ⟨'-' :: (r :: more ++ rest), offset + first.length, depth⟩) :=
      outcome_classRune hfirst passes_of_append
    have hhi : outcome (classRune ⟨r :: more ++ rest, offset + first.length + 1, depth⟩) =
        .ok (hi, ⟨rest, offset + first.length + 1 + (r :: more).length, depth⟩) :=
      outcome_classRune hlast passes_of_append
    rw [List.cons_append] at hlo hhi
    rw [List.append_assoc]
    refine (outcome_member_range hlo hr).trans ?_
    rw [hhi]
    simp only [Except.bind, if_pos hlt]

theorem outcome_members_unclosed {text : List Char} {members' : List (List Node)}
    (h : MembersText text members') :
    ∀ {offset depth : Nat} {soFar : List (List Node)} {hc : text.length < start.rest.length},
      outcome (members start soFar ⟨text, offset, depth⟩ hc) =
        .error (.expected .closingBracket none (offset + text.length)) := by
  induction h with
  | nil => exact outcome_members_nil
  | @rune first text lo members' hfirst htext hdash ih =>
    intro offset depth soFar hc
    have hsingle : ∀ r more, text = '-' :: r :: more → r = ']' := by
      intro r more heq
      exact absurd heq (hdash r more)
    have hmember := outcome_member_single
      (outcome_classRune hfirst (@passes_of_append offset depth first text)) hsingle
    obtain ⟨_, heq⟩ := outcome_members_of_member hfirst passes_of_append hmember
    rw [heq, ih, List.length_append, Nat.add_assoc]
  | @range first last text lo hi members' hfirst hlast hle htext ih =>
    intro offset depth soFar hc
    have hmid := @passes_of_append offset depth first ('-' :: (last ++ text))
    have hnext := @passes_of_append (offset + first.length) depth ('-' :: last) text
    have hmember := outcome_member_range_of_classRune hfirst hlast hle hmid hnext
    obtain ⟨_, heq⟩ := outcome_members_of_member hfirst hmid hmember
    have hlength : offset + first.length + ('-' :: last).length + text.length =
        offset + (first ++ '-' :: (last ++ text)).length := by
      simp only [List.length_append, List.length_cons]
      omega
    rw [heq, ih, hlength]

theorem outcome_members_of_refused {viable bad : List Char}
    (h : MembersRefused offset viable bad e) :
    ∀ {soFar : List (List Node)} {hc : (viable ++ bad).length < start.rest.length},
      outcome (members start soFar ⟨viable ++ bad, offset, depth⟩ hc) = .error e := by
  induction h with
  | @here offset viable bad e hmember =>
    intro soFar hc
    have hrefused : outcome (member ⟨viable ++ bad, offset, depth⟩) = .error e :=
      outcome_member_of_refused hmember
    obtain ⟨r, rest, rfl, hr⟩ := (MembersRefused.here hmember).head
    exact outcome_members_of_error hr hrefused
  | @behindRune offset first viable bad lo e hfirst hrest hdash ih =>
    intro soFar hc
    have hsingle : ∀ r more, viable ++ bad = '-' :: r :: more → r = ']' := by
      intro r more heq
      exact absurd heq (hdash r more)
    have hmid := @passes_of_append offset depth first (viable ++ bad)
    have hmember := outcome_member_single (outcome_classRune hfirst hmid) hsingle
    obtain ⟨_, heq⟩ := outcome_members_of_member hfirst hmid hmember
    simp only [List.append_assoc]
    rw [heq, ih]
  | @behindRange offset first last viable bad lo hi e hfirst hlast hle hrest ih =>
    intro soFar hc
    have hmid := @passes_of_append offset depth first ('-' :: (last ++ (viable ++ bad)))
    have hnext := @passes_of_append (offset + first.length) depth ('-' :: last) (viable ++ bad)
    have hmember := outcome_member_range_of_classRune hfirst hlast hle hmid hnext
    obtain ⟨_, heq⟩ := outcome_members_of_member hfirst hmid hmember
    have hoffset : offset + first.length + ('-' :: last).length =
        offset + first.length + 1 + last.length := by
      rw [List.length_cons]
      omega
    simp only [List.append_assoc, List.cons_append]
    rw [heq, hoffset, ih]

theorem outcome_members_of_classRefused {viable bad : List Char}
    (h : ClassRefused offset viable bad e) {hc : (viable ++ bad).length < start.rest.length} :
    outcome (members start [] ⟨viable ++ bad, offset, depth⟩ hc) = .error e := by
  cases h with
  | unclosed htext =>
    simp only [List.append_nil]
    exact outcome_members_unclosed htext
  | empty => exact outcome_members_close
  | member hmembers => exact outcome_members_of_refused hmembers

theorem outcome_literalTail_dangling {text runes : List Char}
    (h : LiteralText inBraces text runes) :
    ∀ {offset depth : Nat} {soFar : List Char} {hc : (text ++ ['\\']).length < start.rest.length},
      outcome (literalTail inBraces start soFar ⟨text ++ ['\\'], offset, depth⟩ hc) =
        .error (.unexpectedEnd (offset + text.length)) := by
  have hbackslash : endsLiteral inBraces '\\' = false := by cases inBraces <;> decide
  induction h with
  | nil => exact outcome_literalTail_of_error hbackslash outcome_rune_dangling
  | @cons first text lo runes hfirst htext ih =>
    intro offset depth soFar hc
    have hrune := outcome_classRune hfirst (@passes_of_append offset depth first (text ++ ['\\']))
    rw [List.length_append, ← Nat.add_assoc]
    obtain ⟨r, more, rfl, hr⟩ := head_of_literalRune hfirst
    rw [List.cons_append] at hrune
    obtain ⟨_, heq⟩ := outcome_literalTail_of_ok hr hrune
    simp only [List.append_assoc, List.cons_append]
    rw [heq, ih, List.length_cons]

theorem outcome_item_dangling {text runes : List Char} (h : LiteralText inBraces text runes)
    (hrest : text ++ ['\\'] = r :: rest) :
    outcome (item inBraces r rest offset depth) =
      .error (.unexpectedEnd (offset + text.length)) := by
  cases h with
  | nil =>
    cases hrest
    rw [outcome_item_literal (by decide)]
    exact outcome_literal_of_error outcome_rune_dangling
  | @cons first text r' runes hfirst htext =>
    have hrune := outcome_classRune hfirst (@passes_of_append offset depth first (text ++ ['\\']))
    obtain ⟨r'', more, rfl, hr⟩ := head_of_literalRune hfirst
    rw [List.append_assoc] at hrest
    cases hrest
    obtain ⟨_, heq⟩ := outcome_literal_of_ok hrune
    rw [outcome_item_literal (endsLiteral_eq_false.mp hr).1, heq,
      outcome_literalTail_dangling htext, List.length_append, Nat.add_assoc]

/-! ## Refused texts are refused: items, sequences and alternatives -/

mutual

theorem outcome_item_of_refused {inBraces : Bool} {r : Char} {rest : List Char}
    {offset depth : Nat} : ∀ {levels : Nat} {viable bad : List Char} {e : CompileError},
    ItemRefused levels inBraces offset viable bad e → viable ++ bad = r :: rest →
      levels + depth = maxGroupDepth → outcome (item inBraces r rest offset depth) = .error e
  | _, _, _, _, .tooDeep, hrest, hlevels => by
    obtain ⟨rfl, rfl⟩ := List.cons.inj hrest
    exact outcome_item_tooDeep (by omega)
  | _, _, _, _, .empty, hrest, hlevels => by
    obtain ⟨rfl, rfl⟩ := List.cons.inj hrest
    rw [outcome_item_braces (by omega), map_eq_error]
    exact outcome_alternatives_close (by decide) (outcome_sequence_ends rfl)
  | _, _, _, _, .braces halts, hrest, hlevels => by
    rw [List.cons_append] at hrest
    obtain ⟨rfl, rfl⟩ := List.cons.inj hrest
    rw [outcome_item_braces (by omega), map_eq_error]
    exact outcome_alternatives_of_refused halts (by omega)
  | _, _, _, _, .positive hclass hmark, hrest, _ => by
    rw [List.cons_append] at hrest
    obtain ⟨rfl, rfl⟩ := List.cons.inj hrest
    rw [outcome_item_bracket, outcome_bracketClass hmark, map_eq_error]
    exact outcome_members_of_classRefused hclass
  | _, _, _, _, .negated hclass, hrest, _ => by
    rw [List.cons_append, List.cons_append] at hrest
    obtain ⟨rfl, rfl⟩ := List.cons.inj hrest
    rw [outcome_item_bracket, outcome_bracketClass_negated, map_eq_error]
    exact outcome_members_of_classRefused hclass
  | _, _, _, _, .literal htext, hrest, _ => by
    rw [List.append_nil] at hrest
    exact outcome_item_dangling htext hrest

theorem outcome_sequence_of_refused {inBraces : Bool} {depth : Nat} {start : Cursor} :
    ∀ {levels offset : Nat} {viable bad : List Char} {e : CompileError} {soFar : List Node}
      {hc : (viable ++ bad).length ≤ start.rest.length},
    SequenceRefused levels inBraces offset viable bad e → levels + depth = maxGroupDepth →
      outcome (sequence inBraces start soFar ⟨viable ++ bad, offset, depth⟩ hc) = .error e
  | _, _, _, _, _, _, _, .here hitem, hlevels => by
    obtain ⟨r, rest, heq, hr⟩ := hitem.head
    have hrefused := outcome_item_of_refused hitem heq hlevels
    simp only [heq]
    exact outcome_sequence_of_error hr hrefused
  | _, offset, _, _, _, soFar, _, @SequenceRefused.behind _ _ _ first viable bad node _ hfirst
      hstops hrest, hlevels => by
    have hmid := @passes_of_append offset depth first (viable ++ bad)
    -- the first item is read as in a text that is in order, and then the rest is refused
    have hrefused := fun hc ↦
      @outcome_sequence_of_refused inBraces depth start _ _ _ _ _ (node :: soFar) hc hrest hlevels
    obtain ⟨r, more, rfl, hr, -⟩ := hfirst.head
    have hitem := outcome_item hfirst hmid (Nat.le_of_eq hlevels) hstops
    obtain ⟨_, heq⟩ := outcome_sequence_of_ok hr hitem
    simp only [List.append_assoc, List.cons_append]
    exact (heq _ _ _).trans (hrefused _)

theorem outcome_alternatives_of_refused {depth : Nat} {start : Cursor} :
    ∀ {levels offset : Nat} {viable bad : List Char} {e : CompileError}
      {soFar : List (List Node)} {hc : (viable ++ bad).length < start.rest.length},
    AlternativesRefused levels offset viable bad e → levels + depth = maxGroupDepth →
      outcome (alternatives start soFar ⟨viable ++ bad, offset, depth⟩ hc) = .error e
  | _, offset, text, _, _, _, _, .unclosed htext, hlevels => by
    -- the last alternative is read to the end of the text, where a brace is missing
    have hmid := @passes_of_append offset depth text []
    exact outcome_alternatives_end
      (outcome_sequence htext hmid (Nat.le_of_eq hlevels) endsSequence_nil)
  | _, _, _, _, _, _, _, .here hsequence, hlevels =>
    outcome_alternatives_of_error (outcome_sequence_of_refused hsequence hlevels)
  | _, offset, _, _, _, _, _, @AlternativesRefused.behind _ _ first viable bad _ _ hfirst hrest,
      hlevels => by
    have hmid := @passes_of_append offset depth first (',' :: (viable ++ bad))
    have hhead := @outcome_sequence true first _ _ _ _ _ [] (Nat.le_refl _) hfirst hmid
      (Nat.le_of_eq hlevels) (endsSequence_cons rfl)
    obtain ⟨_, heq⟩ := outcome_alternatives_comma hhead
    simp only [List.append_assoc, List.cons_append]
    exact (heq _ _ _).trans (outcome_alternatives_of_refused hrest hlevels)

end

end PathGlob.Reading

/-! ## Whole texts -/

namespace PathGlob.Pattern

open Reading

theorem ofRunes_eq_error {runes : List Char} {e : CompileError} :
    ofRunes runes = .error e ↔
      ∃ viable bad, runes = viable ++ bad ∧ Grammar.PatternRefused viable bad e := by
  have hsequence : ofRunes runes = .error e ↔
      outcome (sequence false (.ofText runes) [] (.ofText runes) (Nat.le_refl _)) = .error e := by
    rw [ofRunes, map_eq_error, outcome_eq_error]
  rw [hsequence]
  constructor
  · intro h
    exact sequenceRefused_of_outcome (Nat.add_zero maxGroupDepth) h
  · rintro ⟨viable, bad, rfl, hrefused⟩
    exact outcome_sequence_of_refused hrefused (Nat.add_zero maxGroupDepth)

end PathGlob.Pattern
