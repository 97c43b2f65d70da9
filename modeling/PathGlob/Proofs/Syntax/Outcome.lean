import Mathlib.Data.Nat.Init
import PathGlob.Syntax.Sequence

/-!
# What reading comes to

The functions that read bound what they leave of the text, and the bounds depend on where the text
starts. That is what their recursion needs and nothing that their results are about, so two readings
are compared by their outcomes: the value and the place behind it, or the error.

Where reading succeeds, a text lies between the place where it starts and the place behind what was
read. `Cursor.Passes` says so, and that offsets are counted and groups are closed on the way.

For each function there is one equation for each way in which it goes on. They say what it comes to
in terms of the outcomes of what it calls, for every start and all that was read so far, and the
proofs about reading go through them and do not open the functions.
-/

namespace PathGlob

/-! ## Places -/

/-- The runes of a text lead from one place to another, at the same depth. -/
structure Cursor.Passes (c : Cursor) (text : List Char) (next : Cursor) : Prop where
  /-- The text comes first, and the rest is what is left behind it. -/
  rest_eq : c.rest = text ++ next.rest
  /-- The runes of the text are counted. -/
  offset_eq : next.offset = c.offset + text.length
  /-- No group is left open, and none is closed that was open before. -/
  depth_eq : next.depth = c.depth

namespace Cursor

variable {c mid next : Cursor} {r : Char} {first text : List Char}

theorem Passes.trans (hfirst : c.Passes first mid) (htext : mid.Passes text next) :
    c.Passes (first ++ text) next := by
  refine ⟨?_, ?_, htext.depth_eq.trans hfirst.depth_eq⟩
  · rw [hfirst.rest_eq, htext.rest_eq, List.append_assoc]
  · rw [htext.offset_eq, hfirst.offset_eq, List.length_append, Nat.add_assoc]

@[simp] theorem passes_nil : c.Passes [] next ↔ next = c := by
  constructor
  · rintro ⟨hrest, hoffset, hdepth⟩
    obtain ⟨_, _, _⟩ := next
    cases hrest
    cases hoffset
    cases hdepth
    rfl
  · rintro rfl
    exact ⟨rfl, rfl, rfl⟩

theorem passes_rune {rest : List Char} {offset depth : Nat} :
    Passes ⟨r :: rest, offset, depth⟩ [r] ⟨rest, offset + 1, depth⟩ := ⟨rfl, rfl, rfl⟩

theorem passes_append :
    c.Passes (first ++ text) next ↔ ∃ mid, c.Passes first mid ∧ mid.Passes text next := by
  constructor
  · rintro ⟨hrest, hoffset, hdepth⟩
    refine ⟨⟨text ++ next.rest, c.offset + first.length, c.depth⟩, ⟨?_, rfl, rfl⟩, rfl, ?_, hdepth⟩
    · rw [hrest, List.append_assoc]
    · rw [hoffset, List.length_append, Nat.add_assoc]
  · rintro ⟨mid, hfirst, htext⟩
    exact hfirst.trans htext

theorem passes_of_append {offset depth : Nat} {first text : List Char} :
    Passes ⟨first ++ text, offset, depth⟩ first ⟨text, offset + first.length, depth⟩ :=
  ⟨rfl, rfl, rfl⟩

theorem passes_cons :
    c.Passes (r :: text) next ↔
      ∃ rest, c.rest = r :: rest ∧ Passes ⟨rest, c.offset + 1, c.depth⟩ text next := by
  constructor
  · rintro ⟨hrest, hoffset, hdepth⟩
    refine ⟨text ++ next.rest, hrest, rfl, ?_, hdepth⟩
    rw [hoffset, List.length_cons, Nat.add_assoc, Nat.add_comm 1]
  · rintro ⟨rest, hc, htext⟩
    have hr : c.Passes [r] ⟨rest, c.offset + 1, c.depth⟩ := ⟨hc, rfl, rfl⟩
    exact hr.trans htext

theorem passes_cons_cons {r' : Char} {rest : List Char} {offset depth : Nat} :
    Passes ⟨r :: rest, offset, depth⟩ (r' :: text) next ↔
      r = r' ∧ Passes ⟨rest, offset + 1, depth⟩ text next := by
  rw [passes_cons]
  constructor
  · rintro ⟨rest, hrest, htext⟩
    cases hrest
    exact ⟨rfl, htext⟩
  · rintro ⟨rfl, htext⟩
    exact ⟨rest, rfl, htext⟩

/-- What is passed does not depend on how many groups are open around it. -/
theorem Passes.deeper (h : c.Passes text next) :
    Passes ⟨c.rest, c.offset, c.depth + 1⟩ text ⟨next.rest, next.offset, next.depth + 1⟩ :=
  ⟨h.rest_eq, h.offset_eq, congrArg (· + 1) h.depth_eq⟩

theorem Passes.shallower (h : c.Passes text next) :
    Passes ⟨c.rest, c.offset, c.depth - 1⟩ text ⟨next.rest, next.offset, next.depth - 1⟩ :=
  ⟨h.rest_eq, h.offset_eq, congrArg (· - 1) h.depth_eq⟩

end Cursor

namespace Reading

variable {α β : Type} {limit : Nat}

/-- What reading comes to: a value and the place behind it, or an error. -/
def outcome (result : Except CompileError (Reading α limit)) : Except CompileError (α × Cursor) :=
  result.map fun reading ↦ (reading.value, reading.next)

@[simp] theorem outcome_error (e : CompileError) :
    outcome (.error e : Except CompileError (Reading α limit)) = .error e := rfl

@[simp] theorem outcome_ok (reading : Reading α limit) :
    outcome (.ok reading) = .ok (reading.value, reading.next) := rfl

theorem outcome_map (f : α → β) (result : Except CompileError (Reading α limit)) :
    outcome (result.map fun reading ↦ reading.map f) =
      (outcome result).map fun (value, next) ↦ (f value, next) := by
  cases result <;> rfl

theorem outcome_eq_ok {result : Except CompileError (Reading α limit)} {value : α}
    {next : Cursor} :
    outcome result = .ok (value, next) ↔ ∃ h, result = .ok ⟨value, next, h⟩ := by
  constructor
  · intro h
    cases result with
    | error e => cases h
    | ok reading =>
      cases h
      exact ⟨reading.shorter, rfl⟩
  · rintro ⟨h, rfl⟩
    rfl

theorem map_eq_ok {result : Except CompileError α} {f : α → β} {value : β} :
    result.map f = .ok value ↔ ∃ a, result = .ok a ∧ f a = value := by
  cases result <;> simp [Except.map]

theorem map_eq_error {result : Except CompileError α} {f : α → β} {e : CompileError} :
    result.map f = .error e ↔ result = .error e := by
  cases result <;> simp [Except.map]

theorem outcome_eq_error {result : Except CompileError (Reading α limit)} {e : CompileError} :
    outcome result = .error e ↔ result = .error e := by
  cases result <;> simp [outcome, Except.map]

variable {inBraces : Bool} {r r' : Char} {rest : List Char} {offset depth : Nat}
  {c start next : Cursor} {node : Node} {e : CompileError}

/-! ## Runes -/

theorem outcome_rune (hr : r ≠ '\\') :
    outcome (rune r rest offset depth) = .ok (r, ⟨rest, offset + 1, depth⟩) := by
  rw [rune.eq_def, if_neg hr, outcome_ok]

theorem outcome_rune_escaped :
    outcome (rune '\\' (r :: rest) offset depth) = .ok (r, ⟨rest, offset + 2, depth⟩) := rfl

theorem outcome_rune_dangling :
    outcome (rune '\\' [] offset depth) = .error (.unexpectedEnd offset) := rfl

/-! ## Classes -/

theorem classRune_cons :
    classRune ⟨r :: rest, offset, depth⟩ = rune r rest offset depth := rfl

theorem outcome_member_of_error (h : outcome (classRune c) = .error e) :
    outcome (member c) = .error e := by
  rw [member, outcome_eq_error.mp h, outcome_error]

/-- A rune that no dash follows, or only a dash and the closing bracket, is a member by itself. -/
theorem outcome_member_single {lo : Char} (h : outcome (classRune c) = .ok (lo, next))
    (hdash : ∀ r rest, next.rest = '-' :: r :: rest → r = ']') :
    outcome (member c) = .ok (.literal [lo], next) := by
  obtain ⟨hnext, hlo⟩ := outcome_eq_ok.mp h
  rw [member, hlo]
  dsimp only
  split
  · rw [if_pos (hdash _ _ rfl), outcome_ok]
  · rw [outcome_ok]

theorem outcome_member_range {lo : Char}
    (h : outcome (classRune c) = .ok (lo, ⟨'-' :: r :: rest, offset, depth⟩)) (hr : r ≠ ']') :
    outcome (member c) =
      (outcome (classRune ⟨r :: rest, offset + 1, depth⟩)).bind fun (hi, next) ↦
        if hi < lo then .error (.expected .upperBound (some hi) (offset + 1))
        else .ok (.range lo hi, next) := by
  obtain ⟨hnext, hlo⟩ := outcome_eq_ok.mp h
  rw [member, hlo]
  simp only [if_neg hr]
  cases classRune ⟨r :: rest, offset + 1, depth⟩ with
  | error e => rfl
  | ok reading =>
    simp only [outcome_ok, Except.bind]
    split <;> rfl

section Members

variable {soFar : List (List Node)}

theorem outcome_members_nil {hc : [].length < start.rest.length} :
    outcome (members start soFar ⟨[], offset, depth⟩ hc) =
      .error (.expected .closingBracket none offset) := by
  rw [members, outcome_error]

theorem outcome_members_close {hc : (']' :: rest).length < start.rest.length} :
    outcome (members start soFar ⟨']' :: rest, offset, depth⟩ hc) =
      if soFar.isEmpty then .error (.expected .classMember (some ']') offset)
      else .ok (soFar.reverse, ⟨rest, offset + 1, depth⟩) := by
  rw [members, if_pos rfl]
  split <;> rfl

theorem outcome_members_of_error {hc : (r :: rest).length < start.rest.length} (hr : r ≠ ']')
    (h : outcome (member ⟨r :: rest, offset, depth⟩) = .error e) :
    outcome (members start soFar ⟨r :: rest, offset, depth⟩ hc) = .error e := by
  rw [members, if_neg hr, outcome_eq_error.mp h, outcome_error]

theorem outcome_members_of_ok (hr : r ≠ ']')
    (h : outcome (member ⟨r :: rest, offset, depth⟩) = .ok (node, next)) :
    ∃ hnext : next.rest.length < (r :: rest).length,
      ∀ (start : Cursor) (soFar : List (List Node)) (hc : (r :: rest).length < start.rest.length),
        outcome (members start soFar ⟨r :: rest, offset, depth⟩ hc) =
          outcome (members start ([node] :: soFar) next (Nat.lt_trans hnext hc)) := by
  obtain ⟨hnext, hmember⟩ := outcome_eq_ok.mp h
  refine ⟨hnext, ?_⟩
  intro start soFar hc
  rw [members, if_neg hr, hmember]

end Members

theorem outcome_bracketClass_negated :
    outcome (bracketClass ('!' :: rest) offset depth) =
      (outcome (members ⟨'[' :: '!' :: rest, offset, depth⟩ [] ⟨rest, offset + 2, depth⟩
        (Nat.lt_succ_of_lt (Nat.lt_succ_self _)))).map fun (alts, next) ↦ (.noneOf alts, next) := by
  rw [bracketClass]
  exact outcome_map Node.noneOf _

theorem outcome_bracketClass (hmark : rest.head? ≠ some '!') :
    outcome (bracketClass rest offset depth) =
      (outcome (members ⟨'[' :: rest, offset, depth⟩ [] ⟨rest, offset + 1, depth⟩
        (Nat.lt_succ_self _))).map fun (alts, next) ↦ (.oneOf alts, next) := by
  rw [bracketClass]
  · exact outcome_map Node.oneOf _
  · rintro rest rfl
    exact hmark rfl

/-! ## Literals -/

section Literals

variable {soFar : List Char}

theorem outcome_literalTail_nil {hc : [].length < start.rest.length} :
    outcome (literalTail inBraces start soFar ⟨[], offset, depth⟩ hc) =
      .ok (.literal soFar.reverse, ⟨[], offset, depth⟩) := by
  rw [literalTail, outcome_ok]

theorem outcome_literalTail_ends {hc : (r :: rest).length < start.rest.length}
    (hr : endsLiteral inBraces r = true) :
    outcome (literalTail inBraces start soFar ⟨r :: rest, offset, depth⟩ hc) =
      .ok (.literal soFar.reverse, ⟨r :: rest, offset, depth⟩) := by
  rw [literalTail, if_pos hr, outcome_ok]

theorem outcome_literalTail_of_error {hc : (r :: rest).length < start.rest.length}
    (hr : endsLiteral inBraces r = false)
    (h : outcome (rune r rest offset depth) = .error e) :
    outcome (literalTail inBraces start soFar ⟨r :: rest, offset, depth⟩ hc) = .error e := by
  rw [literalTail, hr, if_neg Bool.false_ne_true, outcome_eq_error.mp h, outcome_error]

theorem outcome_literalTail_of_ok (hr : endsLiteral inBraces r = false)
    (h : outcome (rune r rest offset depth) = .ok (r', next)) :
    ∃ hnext : next.rest.length < (r :: rest).length,
      ∀ (start : Cursor) (soFar : List Char) (hc : (r :: rest).length < start.rest.length),
        outcome (literalTail inBraces start soFar ⟨r :: rest, offset, depth⟩ hc) =
          outcome (literalTail inBraces start (r' :: soFar) next (Nat.lt_trans hnext hc)) := by
  obtain ⟨hnext, hrune⟩ := outcome_eq_ok.mp h
  refine ⟨hnext, ?_⟩
  intro start soFar hc
  rw [literalTail, hr, if_neg Bool.false_ne_true, hrune]

end Literals

theorem outcome_literal_of_error (h : outcome (rune r rest offset depth) = .error e) :
    outcome (literal inBraces r rest offset depth) = .error e := by
  rw [literal, outcome_eq_error.mp h, outcome_error]

theorem outcome_literal_of_ok (h : outcome (rune r rest offset depth) = .ok (r', next)) :
    ∃ hnext, ∀ inBraces : Bool, outcome (literal inBraces r rest offset depth) =
      outcome (literalTail inBraces ⟨r :: rest, offset, depth⟩ [r'] next hnext) := by
  obtain ⟨hnext, hrune⟩ := outcome_eq_ok.mp h
  refine ⟨hnext, ?_⟩
  intro inBraces
  rw [literal, hrune]

/-! ## Items -/

theorem outcome_item_slash :
    outcome (item inBraces '/' rest offset depth) = .ok (.slash, ⟨rest, offset + 1, depth⟩) := by
  rw [item, outcome_ok]

theorem outcome_item_globstar :
    outcome (item inBraces '*' ('*' :: rest) offset depth) =
      .ok (.globstar, ⟨rest, offset + 2, depth⟩) := by
  rw [item, outcome_ok]

theorem outcome_item_anyText (hstar : rest.head? ≠ some '*') :
    outcome (item inBraces '*' rest offset depth) = .ok (.anyText, ⟨rest, offset + 1, depth⟩) := by
  rw [item]
  · rw [outcome_ok]
  · rintro rest rfl
    exact hstar rfl

theorem outcome_item_anyChar :
    outcome (item inBraces '?' rest offset depth) = .ok (.anyChar, ⟨rest, offset + 1, depth⟩) := by
  rw [item, outcome_ok]

theorem outcome_item_tooDeep (hdepth : maxGroupDepth ≤ depth) :
    outcome (item inBraces '\x7b' rest offset depth) = .error (.tooDeep offset) := by
  rw [item, if_pos hdepth, outcome_error]

/-- A group that is closed gives its level back. -/
theorem outcome_item_braces (hdepth : depth < maxGroupDepth) :
    outcome (item inBraces '\x7b' rest offset depth) =
      (outcome (alternatives ⟨'\x7b' :: rest, offset, depth⟩ [] ⟨rest, offset + 1, depth + 1⟩
        (Nat.lt_succ_self _))).map fun (alts, next) ↦
          (.oneOf alts, ⟨next.rest, next.offset, next.depth - 1⟩) := by
  rw [item, if_neg (Nat.not_le.mpr hdepth)]
  cases alternatives ⟨'\x7b' :: rest, offset, depth⟩ [] ⟨rest, offset + 1, depth + 1⟩ _ <;> rfl

theorem outcome_item_bracket :
    outcome (item inBraces '[' rest offset depth) =
      outcome (bracketClass rest offset depth) := by
  rw [item]

theorem outcome_item_literal (hr : startsItem r = false) :
    outcome (item inBraces r rest offset depth) =
      outcome (literal inBraces r rest offset depth) := by
  simp only [startsItem, Bool.or_eq_false_iff, decide_eq_false_iff_not] at hr
  rw [item]
  all_goals intro heq
  all_goals simp_all

/-! ## Sequences -/

section Sequences

variable {soFar : List Node}

theorem outcome_sequence_nil {hc : [].length ≤ start.rest.length} :
    outcome (sequence inBraces start soFar ⟨[], offset, depth⟩ hc) =
      .ok (soFar.reverse, ⟨[], offset, depth⟩) := by
  rw [sequence, outcome_ok]

theorem outcome_sequence_ends {hc : (r :: rest).length ≤ start.rest.length}
    (hr : (inBraces && endsAlternative r) = true) :
    outcome (sequence inBraces start soFar ⟨r :: rest, offset, depth⟩ hc) =
      .ok (soFar.reverse, ⟨r :: rest, offset, depth⟩) := by
  rw [sequence, if_pos hr, outcome_ok]

theorem outcome_sequence_of_error {hc : (r :: rest).length ≤ start.rest.length}
    (hr : (inBraces && endsAlternative r) = false)
    (h : outcome (item inBraces r rest offset depth) = .error e) :
    outcome (sequence inBraces start soFar ⟨r :: rest, offset, depth⟩ hc) = .error e := by
  rw [sequence, hr, if_neg Bool.false_ne_true, outcome_eq_error.mp h, outcome_error]

theorem outcome_sequence_of_ok (hr : (inBraces && endsAlternative r) = false)
    (h : outcome (item inBraces r rest offset depth) = .ok (node, next)) :
    ∃ hnext : next.rest.length < (r :: rest).length,
      ∀ (start : Cursor) (soFar : List Node) (hc : (r :: rest).length ≤ start.rest.length),
        outcome (sequence inBraces start soFar ⟨r :: rest, offset, depth⟩ hc) =
          outcome (sequence inBraces start (node :: soFar) next
            (Nat.le_trans (Nat.le_of_lt hnext) hc)) := by
  obtain ⟨hnext, hitem⟩ := outcome_eq_ok.mp h
  refine ⟨hnext, ?_⟩
  intro start soFar hc
  rw [sequence, hr, if_neg Bool.false_ne_true, hitem]

end Sequences

/-! ## Alternatives -/

section Alternatives

variable {soFar : List (List Node)} {alt : List Node} {hc : c.rest.length < start.rest.length}

theorem outcome_alternatives_of_error
    (h : outcome (sequence true c [] c (Nat.le_refl _)) = .error e) :
    outcome (alternatives start soFar c hc) = .error e := by
  rw [alternatives, outcome_eq_error.mp h, outcome_error]

theorem outcome_alternatives_end
    (h : outcome (sequence true c [] c (Nat.le_refl _)) = .ok (alt, ⟨[], offset, depth⟩)) :
    outcome (alternatives start soFar c hc) = .error (.expected .closingBrace none offset) := by
  obtain ⟨hnext, hsequence⟩ := outcome_eq_ok.mp h
  rw [alternatives, hsequence, outcome_error]

theorem outcome_alternatives_comma
    (h : outcome (sequence true c [] c (Nat.le_refl _)) =
      .ok (alt, ⟨',' :: rest, offset, depth⟩)) :
    ∃ hnext : rest.length < c.rest.length,
      ∀ (start : Cursor) (soFar : List (List Node)) (hc : c.rest.length < start.rest.length),
        outcome (alternatives start soFar c hc) =
          outcome (alternatives start (alt :: soFar) ⟨rest, offset + 1, depth⟩
            (Nat.lt_trans hnext hc)) := by
  obtain ⟨hnext, hsequence⟩ := outcome_eq_ok.mp h
  refine ⟨Nat.lt_of_succ_lt_succ hnext, ?_⟩
  intro start soFar hc
  rw [alternatives, hsequence]
  simp only [if_true]

/-- A group that holds one empty alternative holds nothing. -/
theorem outcome_alternatives_close (hr : r ≠ ',')
    (h : outcome (sequence true c [] c (Nat.le_refl _)) = .ok (alt, ⟨r :: rest, offset, depth⟩)) :
    outcome (alternatives start soFar c hc) =
      if soFar.isEmpty && alt.isEmpty then
        .error (.expected .groupAlternative (some '\x7d') (start.offset + 1))
      else .ok ((alt :: soFar).reverse, ⟨rest, offset + 1, depth⟩) := by
  obtain ⟨hnext, hsequence⟩ := outcome_eq_ok.mp h
  rw [alternatives, hsequence]
  simp only [if_neg hr]
  split <;> rfl

end Alternatives

end Reading

end PathGlob
