import PathGlob.Proofs.Syntax.RefusalReading
import PathGlob.Syntax.Nesting

/-!
# Errors point at what is wrong

A piece of a text that is in order leaves as much open as was open before it, whatever stands in it:
a class closes what it opens, a group too, and what is escaped opens and closes nothing. A text is
refused behind such pieces and behind the brackets and braces that are still open. So the place of
an error shows in the text itself, by the runes beside its offset and by what is open there.
-/

namespace PathGlob

namespace Grammar

open Nesting

variable {inBraces : Bool} {n levels offset : Nat} {first text runes viable bad : List Char}
  {r : Char} {e : CompileError}

/-! ## Pieces in order leave open what was open -/

/-- At top level a closing brace may stand in a literal, but no group is open there. -/
theorem Spelling.after_outside (h : Spelling (SpecialInLiteral inBraces) first r)
    (htop : inBraces = false → n = 0) : (outside n).after first = outside n := by
  cases h with
  | escaped => exact step_step_outside n r
  | bare hspecial hbackslash =>
    rw [after_cons, after_nil]
    by_cases hclosing : r = '\x7d'
    · subst hclosing
      cases inBraces with
      | true => exact absurd (.inr ⟨rfl, by decide⟩) hspecial
      | false => rw [htop rfl, step_outside_closing]
    · refine step_outside (fun hr ↦ ?_) n
      simp only [List.mem_cons, List.not_mem_nil, or_false] at hr
      rcases hr with rfl | rfl | rfl | rfl
      · exact hbackslash rfl
      · exact hspecial (.inl (by decide))
      · exact hspecial (.inl (by decide))
      · exact hclosing rfl

theorem LiteralText.after_outside (h : LiteralText inBraces text runes)
    (htop : inBraces = false → n = 0) : (outside n).after text = outside n := by
  induction h with
  | nil => rfl
  | cons hfirst _ ih => rw [after_append, hfirst.after_outside htop, ih]

theorem Spelling.after_inside (h : ClassRune first r) : (inside n).after first = inside n := by
  cases h with
  | escaped => exact step_step_inside n r
  | bare hbracket hbackslash => exact step_inside hbackslash hbracket n

theorem MembersText.after_inside {members : List (List Node)} (h : MembersText text members) :
    (inside n).after text = inside n := by
  induction h with
  | nil => rfl
  | rune hfirst _ _ ih => rw [after_append, hfirst.after_inside, ih]
  | range hfirst hlast _ _ ih =>
    rw [after_append, hfirst.after_inside, after_cons, step_inside (by decide) (by decide),
      after_append, hlast.after_inside, ih]

mutual

theorem ItemText.after_outside {levels n : Nat} {inBraces : Bool} {text : List Char} {node : Node} :
    ItemText levels inBraces text node → (inBraces = false → n = 0) →
      (outside n).after text = outside n
  | .slash, _ | .globstar, _ | .anyChar, _ | .anyText, _ => rfl
  | .literal htext _, htop => htext.after_outside htop
  | .positive htext _ _, _ => by
    rw [after_cons, step_outside_bracket, after_append, htext.after_inside, after_cons,
      step_inside_bracket, after_nil]
  | .negated htext _, _ => by
    rw [after_cons, step_outside_bracket, after_cons, step_inside (by decide) (by decide),
      after_append, htext.after_inside, after_cons, step_inside_bracket, after_nil]
  | .braces halts _, _ => by
    rw [after_cons, step_outside_brace, after_append, halts.after_outside, after_cons,
      step_outside_closing, after_nil, Nat.add_sub_cancel]

theorem SequenceText.after_outside {levels n : Nat} {inBraces : Bool} {text : List Char}
    {nodes : List Node} :
    SequenceText levels inBraces text nodes → (inBraces = false → n = 0) →
      (outside n).after text = outside n
  | .nil, _ => rfl
  | .cons hfirst htext _ _, htop => by
    rw [after_append, hfirst.after_outside htop, htext.after_outside htop]

theorem AlternativesText.after_outside {levels n : Nat} {text : List Char}
    {alts : List (List Node)} :
    AlternativesText levels text alts → (outside n).after text = outside n
  | .one htext => htext.after_outside nofun
  | .cons hfirst htext => by
    rw [after_append, hfirst.after_outside nofun, after_cons, step_outside (by decide),
      htext.after_outside]

end

/-! ## What stands before a refused text -/

/-- A text of `offset` runes leaves `state` open behind it. -/
structure Behind (before : List Char) (offset : Nat) (state : Nesting) : Prop where
  /-- How long the text is. -/
  length_eq : before.length = offset
  /-- What is open behind it. -/
  nesting_eq : nesting before = state

namespace Behind

variable {before behind : List Char} {state state' : Nesting}

theorem append (h : Behind before offset state) (htext : state.after text = state') :
    Behind (before ++ text) (offset + text.length) state' := by
  obtain ⟨rfl, rfl⟩ := h
  exact ⟨List.length_append, by rw [nesting, after_append]; exact htext⟩

theorem push (h : Behind before offset state) (hr : state.step r = state') :
    Behind (before ++ [r]) (offset + 1) state' :=
  h.append hr

theorem meetAt (h : Behind before offset state) (hfirst : first <:+ before)
    (htext : text <+: behind) : MeetAt (before ++ behind) offset first text := by
  rw [MeetAt, List.take_left' h.length_eq, List.drop_left' h.length_eq]
  exact ⟨hfirst, htext⟩

theorem nesting_take (h : Behind before offset state) :
    nesting ((before ++ behind).take offset) = state := by
  rw [List.take_left' h.length_eq, h.nesting_eq]

theorem pointsAt_unexpectedEnd (h : Behind before offset state) :
    (CompileError.unexpectedEnd offset).PointsAt (before ++ ['\\']) :=
  ⟨by rw [← h.length_eq, List.length_append]; rfl,
    h.meetAt List.nil_suffix (List.prefix_refl _)⟩

theorem pointsAt_unclosed (h : Behind before offset state) :
    (CompileError.expected (if state.inClass then .closingBracket else .closingBrace) none
      offset).PointsAt before := by
  obtain ⟨rfl, rfl⟩ := h
  exact ⟨rfl, rfl⟩

end Behind

/-! ## Errors of classes and literals -/

variable {before : List Char}

theorem Spelling.suffix {special : Char → Prop} (h : Spelling special first r) : [r] <:+ first := by
  cases h with
  | bare => exact List.suffix_refl _
  | escaped => exact List.suffix_cons _ _

theorem Behind.dash (h : Behind before offset (inside n)) (hfirst : ClassRune first r) :
    Behind (before ++ (first ++ ['-'])) (offset + first.length + 1) (inside n) := by
  rw [← List.append_assoc]
  exact (h.append hfirst.after_inside).push (step_inside (by decide) (by decide) n)

theorem MemberRefused.pointsAt (h : MemberRefused offset viable bad e)
    (hbefore : Behind before offset (inside n)) : e.PointsAt (before ++ (viable ++ bad)) := by
  cases h with
  | dangling => exact hbefore.pointsAt_unexpectedEnd
  | danglingBound hfirst => simpa using (hbefore.dash hfirst).pointsAt_unexpectedEnd
  | @backwards first last rest lo hi hfirst hlast hlt =>
    have hdash := hbefore.dash hfirst
    have hlo : [lo, '-'] <:+ before ++ (first ++ ['-']) := by
      rw [← List.append_assoc]
      exact List.suffix_append_self_iff.mpr (hfirst.suffix.trans (List.suffix_append _ _))
    rw [← List.append_assoc]
    refine ⟨lo, hlt, by rw [hdash.nesting_take]; rfl, ?_⟩
    cases hlast with
    | bare _ hbackslash => exact .inl ⟨hbackslash, hdash.meetAt hlo (List.prefix_append _ _)⟩
    | escaped => exact .inr (hdash.meetAt hlo (List.prefix_append _ _))

theorem MembersRefused.pointsAt (h : MembersRefused offset viable bad e)
    (hbefore : Behind before offset (inside n)) : e.PointsAt (before ++ (viable ++ bad)) := by
  induction h generalizing before with
  | here hmember => exact hmember.pointsAt hbefore
  | behindRune hfirst _ _ ih => simpa using ih (hbefore.append hfirst.after_inside)
  | behindRange hfirst hlast _ _ ih =>
    simpa using ih ((hbefore.dash hfirst).append hlast.after_inside)

theorem ClassRefused.pointsAt (h : ClassRefused offset viable bad e)
    (hbefore : Behind before offset (inside n))
    (hopens : ['['] <:+ before ∨ ['[', '!'] <:+ before) :
    e.PointsAt (before ++ (viable ++ bad)) := by
  cases h with
  | unclosed htext =>
    rw [List.append_nil]
    exact (hbefore.append htext.after_inside).pointsAt_unclosed
  | empty =>
    have hcloses {bad : List Char} : [']'] <+: ']' :: bad := List.prefix_append [']'] bad
    exact ⟨rfl, hopens.imp (hbefore.meetAt · hcloses) (hbefore.meetAt · hcloses)⟩
  | member hmembers => exact hmembers.pointsAt hbefore

/-! ## Errors of items, sequences and alternatives -/

mutual

/-- An item is refused where groups and the levels left for it make up the limit. -/
theorem ItemRefused.pointsAt {levels n offset : Nat} {inBraces : Bool}
    {before viable bad : List Char} {e : CompileError} :
    ItemRefused levels inBraces offset viable bad e → Behind before offset (outside n) →
      levels + n = maxGroupDepth → (inBraces = false → n = 0) →
        e.PointsAt (before ++ (viable ++ bad))
  | .tooDeep, hbefore, hlevels, _ => by
    -- no level is left, so as many groups are open as may be
    obtain rfl : n = maxGroupDepth := by omega
    exact ⟨hbefore.meetAt List.nil_suffix (List.prefix_append ['\x7b'] _), hbefore.nesting_take⟩
  | .empty, hbefore, _, _ => by
    have hopen := hbefore.push (step_outside_brace n)
    rw [← List.append_assoc]
    exact ⟨rfl, hopen.meetAt (List.suffix_append _ _) (List.prefix_append ['\x7d'] _)⟩
  | .braces halts, hbefore, hlevels, _ => by
    have hopen := hbefore.push (step_outside_brace n)
    simpa using halts.pointsAt hopen (by omega)
  | .positive hclass _, hbefore, _, _ => by
    have hopen := hbefore.push (step_outside_bracket n)
    simpa using hclass.pointsAt hopen (.inl (List.suffix_append _ _))
  | .negated hclass, hbefore, _, _ => by
    have hopen : Behind (before ++ ['[', '!']) (offset + 2) (inside n) := hbefore.append rfl
    simpa using hclass.pointsAt hopen (.inr (List.suffix_append _ _))
  | .literal htext, hbefore, _, htop => by
    simpa using (hbefore.append (htext.after_outside htop)).pointsAt_unexpectedEnd

theorem SequenceRefused.pointsAt {levels n offset : Nat} {inBraces : Bool}
    {before viable bad : List Char} {e : CompileError} :
    SequenceRefused levels inBraces offset viable bad e → Behind before offset (outside n) →
      levels + n = maxGroupDepth → (inBraces = false → n = 0) →
        e.PointsAt (before ++ (viable ++ bad))
  | .here hitem, hbefore, hlevels, htop => hitem.pointsAt hbefore hlevels htop
  | .behind hfirst _ hrest, hbefore, hlevels, htop => by
    simpa using hrest.pointsAt (hbefore.append (hfirst.after_outside htop)) hlevels htop

theorem AlternativesRefused.pointsAt {levels n offset : Nat} {before viable bad : List Char}
    {e : CompileError} :
    AlternativesRefused levels offset viable bad e → Behind before offset (outside n) →
      levels + n = maxGroupDepth → e.PointsAt (before ++ (viable ++ bad))
  | .unclosed htext, hbefore, _ => by
    rw [List.append_nil]
    exact (hbefore.append (htext.after_outside nofun)).pointsAt_unclosed
  | .here hsequence, hbefore, hlevels => hsequence.pointsAt hbefore hlevels nofun
  | .behind hfirst hrest, hbefore, hlevels => by
    have hcomma := (hbefore.append (hfirst.after_outside nofun)).push
      (r := ',') (step_outside (by decide) n)
    simpa using hrest.pointsAt hcomma hlevels

end

end Grammar

/-! ## Errors of whole texts -/

theorem MeetAt.offset_le {text before behind : List Char} {offset : Nat} {r : Char}
    (h : MeetAt text offset before (r :: behind)) : offset ≤ text.length := by
  have hlt := h.2.length_le
  rw [List.length_cons, List.length_drop] at hlt
  omega

theorem CompileError.PointsAt.offset_le {text : List Char} {e : CompileError}
    (h : e.PointsAt text) :
    ∃ offset, e.offset? = some offset ∧ offset ≤ text.length := by
  unfold PointsAt at h
  split at h
  · exact ⟨_, rfl, by omega⟩
  · exact ⟨_, rfl, Nat.le_of_eq h.1⟩
  · exact ⟨_, rfl, h.2.offset_le⟩
  · exact ⟨_, rfl, h.2.elim MeetAt.offset_le MeetAt.offset_le⟩
  · obtain ⟨lo, -, -, hmeet⟩ := h
    exact ⟨_, rfl, hmeet.elim (fun hmeet ↦ hmeet.2.offset_le) MeetAt.offset_le⟩
  · exact ⟨_, rfl, h.1.offset_le⟩
  · exact h.elim
  · exact h.elim

namespace Pattern

/-- **Errors point at what is wrong.** Whatever text is refused, the error of it points at what is
wrong with the text, and never past its end. The proof follows the rules for refused texts, along
which what is open at the offset is the groups and the class that were opened around the fault. -/
theorem pointsAt_of_compile_error {source : String} {e : CompileError}
    (h : compile source = .error e) :
    e.PointsAt source.toList ∧
      ∃ offset, e.offset? = some offset ∧ offset ≤ source.toList.length := by
  obtain ⟨viable, bad, hsource, hrefused⟩ := ofRunes_eq_error.mp h
  have hpoints : e.PointsAt ([] ++ (viable ++ bad)) :=
    Grammar.SequenceRefused.pointsAt hrefused ⟨rfl, rfl⟩ (Nat.add_zero maxGroupDepth) fun _ ↦ rfl
  rw [List.nil_append, ← hsource] at hpoints
  exact ⟨hpoints, hpoints.offset_le⟩

/-- A range that runs backwards down to an escaped rune is refused at the backslash. -/
theorem pointsAt_of_compile_error_bound :
    let backwards : CompileError := .expected .upperBound (some 'b') 6
    compile "\x7ba,[z-\\b" = .error backwards ∧
      backwards.PointsAt "\x7ba,[z-\\b".toList ∧
        ∃ offset, backwards.offset? = some offset ∧ offset ≤ "\x7ba,[z-\\b".toList.length := by
  intro backwards
  have hbackwards : compile "\x7ba,[z-\\b" = .error backwards := by cbv
  exact ⟨hbackwards, pointsAt_of_compile_error hbackwards⟩

end Pattern

end PathGlob
