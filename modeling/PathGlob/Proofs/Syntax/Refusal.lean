import PathGlob.Proofs.Syntax.Complete

/-!
# The grammar of refused texts

The grammar says which texts are patterns, and this file says which texts are refused, and with
which error. A refused text has two parts. The first part is all in order, and could still become a
pattern; the second part starts with what is wrong, and is empty if nothing is wrong but that the
text ends. What comes behind the rune that is wrong does not matter, so the second part may go on in
any way.

The rules follow those of the grammar: a construct is refused for a fault of its own, or for that of
a construct inside it, behind pieces that are in order. As in the grammar, a piece of a sequence
stops where reading stops. Each rule counts its offset from that of the first rune of its text.

An error that says no more than that the text ended too early leaves nothing in the second part.
Every other error is about the first rune of the second part.
-/

namespace PathGlob

namespace Grammar

/-- A text that is refused for its first member of a class. -/
inductive MemberRefused : (offset : Nat) → (viable bad : List Char) → CompileError → Prop
  /-- The text ends behind a backslash. -/
  | dangling {offset : Nat} : MemberRefused offset ['\\'] [] (.unexpectedEnd offset)
  /-- The text ends behind a backslash in the upper bound of a range. -/
  | danglingBound {offset : Nat} {first : List Char} {lo : Char} (hfirst : ClassRune first lo) :
    MemberRefused offset (first ++ ['-', '\\']) [] (.unexpectedEnd (offset + first.length + 1))
  /-- A range runs backwards, which is noticed at its upper bound. -/
  | backwards {offset : Nat} {first last rest : List Char} {lo hi : Char}
    (hfirst : ClassRune first lo) (hlast : ClassRune last hi) (hlt : hi < lo) :
    MemberRefused offset (first ++ ['-']) (last ++ rest)
      (.expected .upperBound (some hi) (offset + first.length + 1))

/-- A text that is refused for a member of a class. -/
inductive MembersRefused : (offset : Nat) → (viable bad : List Char) → CompileError → Prop
  /-- The first member is refused. -/
  | here {offset : Nat} {viable bad : List Char} {e : CompileError}
    (hmember : MemberRefused offset viable bad e) : MembersRefused offset viable bad e
  /-- The fault is behind a single rune. -/
  | behindRune {offset : Nat} {first viable bad : List Char} {r : Char} {e : CompileError}
    (hfirst : ClassRune first r) (hrest : MembersRefused (offset + first.length) viable bad e)
    (hdash : ∀ next rest, viable ++ bad ≠ '-' :: next :: rest) :
    MembersRefused offset (first ++ viable) bad e
  /-- The fault is behind a range. -/
  | behindRange {offset : Nat} {first last viable bad : List Char} {lo hi : Char} {e : CompileError}
    (hfirst : ClassRune first lo) (hlast : ClassRune last hi) (hle : lo ≤ hi)
    (hrest : MembersRefused (offset + first.length + 1 + last.length) viable bad e) :
    MembersRefused offset (first ++ '-' :: (last ++ viable)) bad e

/-- A text that is refused as what stands in a class, behind the bracket and the mark. -/
inductive ClassRefused : (offset : Nat) → (viable bad : List Char) → CompileError → Prop
  /-- The text ends before the closing bracket. -/
  | unclosed {offset : Nat} {text : List Char} {members : List (List Node)}
    (htext : MembersText text members) :
    ClassRefused offset text [] (.expected .closingBracket none (offset + text.length))
  /-- The class closes before its first member. -/
  | empty {offset : Nat} {rest : List Char} :
    ClassRefused offset [] (']' :: rest) (.expected .classMember (some ']') offset)
  /-- A member is refused. -/
  | member {offset : Nat} {viable bad : List Char} {e : CompileError}
    (hmembers : MembersRefused offset viable bad e) : ClassRefused offset viable bad e

mutual

/-- A text that is refused for its first item. -/
inductive ItemRefused : (levels : Nat) → (inBraces : Bool) → (offset : Nat) →
    (viable bad : List Char) → CompileError → Prop
  /-- A brace opens one group too many. -/
  | tooDeep {inBraces : Bool} {offset : Nat} {rest : List Char} :
    ItemRefused 0 inBraces offset [] ('\x7b' :: rest) (.tooDeep offset)
  /-- A group closes with nothing between its braces. -/
  | empty {levels : Nat} {inBraces : Bool} {offset : Nat} {rest : List Char} :
    ItemRefused (levels + 1) inBraces offset ['\x7b'] ('\x7d' :: rest)
      (.expected .groupAlternative (some '\x7d') (offset + 1))
  /-- What stands in braces is refused. -/
  | braces {levels : Nat} {inBraces : Bool} {offset : Nat} {viable bad : List Char}
    {e : CompileError} (halts : AlternativesRefused levels (offset + 1) viable bad e) :
    ItemRefused (levels + 1) inBraces offset ('\x7b' :: viable) bad e
  /-- What stands in a class is refused. -/
  | positive {levels : Nat} {inBraces : Bool} {offset : Nat} {viable bad : List Char}
    {e : CompileError} (hclass : ClassRefused (offset + 1) viable bad e)
    (hmark : (viable ++ bad).head? ≠ some '!') :
    ItemRefused levels inBraces offset ('[' :: viable) bad e
  /-- What stands in a negated class is refused. -/
  | negated {levels : Nat} {inBraces : Bool} {offset : Nat} {viable bad : List Char}
    {e : CompileError} (hclass : ClassRefused (offset + 2) viable bad e) :
    ItemRefused levels inBraces offset ('[' :: '!' :: viable) bad e
  /-- The text ends behind a backslash in a literal. -/
  | literal {levels : Nat} {inBraces : Bool} {offset : Nat} {text runes : List Char}
    (htext : LiteralText inBraces text runes) :
    ItemRefused levels inBraces offset (text ++ ['\\']) [] (.unexpectedEnd (offset + text.length))

/-- A text that is refused for an item of a sequence. -/
inductive SequenceRefused : (levels : Nat) → (inBraces : Bool) → (offset : Nat) →
    (viable bad : List Char) → CompileError → Prop
  /-- The first item is refused. -/
  | here {levels : Nat} {inBraces : Bool} {offset : Nat} {viable bad : List Char}
    {e : CompileError} (hitem : ItemRefused levels inBraces offset viable bad e) :
    SequenceRefused levels inBraces offset viable bad e
  /-- The fault is behind the first item. -/
  | behind {levels : Nat} {inBraces : Bool} {offset : Nat} {first viable bad : List Char}
    {node : Node} {e : CompileError} (hfirst : ItemText levels inBraces first node)
    (hstops : node.Stops inBraces (viable ++ bad))
    (hrest : SequenceRefused levels inBraces (offset + first.length) viable bad e) :
    SequenceRefused levels inBraces offset (first ++ viable) bad e

/-- A text that is refused as what stands in braces. -/
inductive AlternativesRefused : (levels : Nat) → (offset : Nat) → (viable bad : List Char) →
    CompileError → Prop
  /-- The text ends before the closing brace. -/
  | unclosed {levels offset : Nat} {text : List Char} {alt : List Node}
    (htext : SequenceText levels true text alt) :
    AlternativesRefused levels offset text []
      (.expected .closingBrace none (offset + text.length))
  /-- The first alternative is refused. -/
  | here {levels offset : Nat} {viable bad : List Char} {e : CompileError}
    (hsequence : SequenceRefused levels true offset viable bad e) :
    AlternativesRefused levels offset viable bad e
  /-- The fault is behind the first alternative. -/
  | behind {levels offset : Nat} {first viable bad : List Char} {alt : List Node}
    {e : CompileError} (hfirst : SequenceText levels true first alt)
    (hrest : AlternativesRefused levels (offset + first.length + 1) viable bad e) :
    AlternativesRefused levels offset (first ++ ',' :: viable) bad e

end

/-- A text that is refused as a pattern. -/
def PatternRefused (viable bad : List Char) (e : CompileError) : Prop :=
  SequenceRefused maxGroupDepth false 0 viable bad e

/-! ## How refused texts start -/

theorem MembersRefused.head {offset : Nat} {viable bad : List Char} {e : CompileError}
    (h : MembersRefused offset viable bad e) : ∃ r rest, viable = r :: rest ∧ r ≠ ']' := by
  cases h with
  | here hmember =>
    cases hmember with
    | dangling => exact ⟨'\\', [], rfl, by decide⟩
    | danglingBound hfirst | backwards hfirst =>
      obtain ⟨r, more, rfl, hr⟩ := head_of_classRune hfirst
      exact ⟨r, _, rfl, hr⟩
  | behindRune hfirst | behindRange hfirst =>
    obtain ⟨r, more, rfl, hr⟩ := head_of_classRune hfirst
    exact ⟨r, _, rfl, hr⟩

/-- A dash alone is not enough to refuse a member, and so the rune behind it is in order too. -/
theorem MembersRefused.head_of_dash {offset : Nat} {viable bad : List Char} {e : CompileError}
    (h : MembersRefused offset viable bad e) {text : List Char} (hdash : viable = '-' :: text) :
    ∃ r rest, text = r :: rest ∧ r ≠ ']' := by
  -- a spelling that starts with a dash is the dash alone
  have hsingle : ∀ {first : List Char} {r : Char}, ClassRune first r → ∀ {more : List Char},
      first ++ more = '-' :: text → more = text := by
    intro first r hfirst more heq
    cases hfirst with
    | bare =>
      cases heq
      rfl
    | escaped => cases heq
  cases h with
  | here hmember =>
    cases hmember with
    | dangling => cases hdash
    | danglingBound hfirst | backwards hfirst =>
      rw [← hsingle hfirst hdash]
      exact ⟨'-', _, rfl, by decide⟩
  | behindRune hfirst hrest =>
    rw [← hsingle hfirst hdash]
    exact hrest.head
  | behindRange hfirst =>
    rw [← hsingle hfirst hdash]
    exact ⟨'-', _, rfl, by decide⟩

/-- A class is refused behind a rune of it as it would be without this rune, if the rune stands
alone and the class does not close behind it. -/
theorem ClassRefused.behindRune {offset : Nat} {first viable bad : List Char} {r : Char}
    {e : CompileError} (hfirst : ClassRune first r)
    (h : ClassRefused (offset + first.length) viable bad e)
    (hclose : (viable ++ bad).head? ≠ some ']')
    (hdash : ∀ next rest, viable ++ bad = '-' :: next :: rest → next = ']') :
    ClassRefused offset (first ++ viable) bad e := by
  cases h with
  | unclosed htext =>
    rw [Nat.add_assoc, ← List.length_append]
    refine .unclosed (.rune hfirst htext ?_)
    rintro next rest rfl
    exact htext.head_behind_dash (hdash next rest (List.append_nil _))
  | empty => exact absurd rfl hclose
  | member hmembers =>
    refine .member (.behindRune hfirst hmembers ?_)
    intro next rest heq
    obtain ⟨r', text, rfl, -⟩ := hmembers.head
    obtain rfl : r' = '-' := List.head_eq_of_cons_eq heq
    obtain ⟨r', text, rfl, hr⟩ := hmembers.head_of_dash rfl
    obtain rfl : r' = next := List.head_eq_of_cons_eq (List.tail_eq_of_cons_eq heq)
    exact hr (hdash r' rest heq)

theorem ClassRefused.behindRange {offset : Nat} {first last viable bad : List Char} {lo hi : Char}
    {e : CompileError} (hfirst : ClassRune first lo) (hlast : ClassRune last hi) (hle : lo ≤ hi)
    (h : ClassRefused (offset + first.length + 1 + last.length) viable bad e)
    (hclose : (viable ++ bad).head? ≠ some ']') :
    ClassRefused offset (first ++ '-' :: (last ++ viable)) bad e := by
  cases h with
  | unclosed htext =>
    have hoffset : offset + first.length + 1 + last.length + viable.length =
        offset + (first ++ '-' :: (last ++ viable)).length := by
      simp only [List.length_append, List.length_cons]
      omega
    rw [hoffset]
    exact .unclosed (.range hfirst hlast hle htext)
  | empty => exact absurd rfl hclose
  | member hmembers => exact .member (.behindRange hfirst hlast hle hmembers)

theorem LiteralText.head_dangling {inBraces : Bool} {text runes : List Char}
    (h : LiteralText inBraces text runes) :
    ∃ r rest, text ++ ['\\'] = r :: rest ∧ endsLiteral inBraces r = false := by
  rcases h with _ | ⟨hfirst, -⟩
  · have hbackslash : ∀ inBraces, endsLiteral inBraces '\\' = false := by decide
    exact ⟨'\\', [], rfl, hbackslash inBraces⟩
  · obtain ⟨r, more, rfl, hr⟩ := head_of_literalRune hfirst
    exact ⟨r, _, rfl, hr⟩

theorem ItemRefused.head {levels offset : Nat} {inBraces : Bool} {viable bad : List Char}
    {e : CompileError} (h : ItemRefused levels inBraces offset viable bad e) :
    ∃ r rest, viable ++ bad = r :: rest ∧ (inBraces && endsAlternative r) = false := by
  cases h with
  | tooDeep | empty | braces | positive | negated =>
    exact ⟨_, _, rfl, endsAlternative_of_startsItem (by decide)⟩
  | literal htext =>
    obtain ⟨r, rest, heq, hr⟩ := htext.head_dangling
    exact ⟨r, rest, (List.append_nil _).trans heq, (endsLiteral_eq_false.mp hr).2⟩

theorem SequenceRefused.ne_nil {levels offset : Nat} {inBraces : Bool} {viable bad : List Char}
    {e : CompileError} (h : SequenceRefused levels inBraces offset viable bad e) :
    viable ++ bad ≠ [] := by
  cases h with
  | here hitem =>
    obtain ⟨r, rest, heq, -⟩ := hitem.head
    rw [heq]
    exact List.cons_ne_nil _ _
  | behind hfirst =>
    obtain ⟨r, rest, rfl, -⟩ := hfirst.head
    exact List.cons_ne_nil _ _

/-! ## Two kinds of errors -/

end Grammar

/-- Whether an error says no more than that the text ended too early. -/
def CompileError.Incomplete : CompileError → Prop
  | .expected _ found _ => found = none
  | .unexpectedEnd _ => True
  | .tooDeep _ | .outOfMemory => False

/-- What an error says about the two parts of the text that is refused with it: either nothing is
wrong but that the text ends, or the error is about the first rune of the second part. -/
def CompileError.Fits (offset : Nat) (viable bad : List Char) (e : CompileError) : Prop :=
  e.Incomplete ∧ bad = [] ∨
    ¬e.Incomplete ∧ bad ≠ [] ∧ e.offset? = some (offset + viable.length)

theorem CompileError.Fits.of_later {later offset : Nat} {text viable bad : List Char}
    {e : CompileError} (h : e.Fits later text bad)
    (hoffset : later + text.length = offset + viable.length) : e.Fits offset viable bad := by
  rcases h with ⟨hincomplete, hbad⟩ | ⟨hhopeless, hbad, hoffset?⟩
  · exact .inl ⟨hincomplete, hbad⟩
  · rw [hoffset] at hoffset?
    exact .inr ⟨hhopeless, hbad, hoffset?⟩

namespace Grammar

theorem MemberRefused.fits {offset : Nat} {viable bad : List Char} {e : CompileError}
    (h : MemberRefused offset viable bad e) : e.Fits offset viable bad := by
  cases h with
  | dangling | danglingBound => exact .inl ⟨trivial, rfl⟩
  | backwards hfirst hlast =>
    obtain ⟨r, more, rfl, -⟩ := hlast.head
    refine .inr ⟨nofun, List.cons_ne_nil _ _, ?_⟩
    simp [CompileError.offset?, Nat.add_assoc]

theorem MembersRefused.fits {offset : Nat} {viable bad : List Char} {e : CompileError}
    (h : MembersRefused offset viable bad e) : e.Fits offset viable bad := by
  induction h with
  | here hmember => exact hmember.fits
  | behindRune _ _ _ ih =>
    apply ih.of_later
    rw [List.length_append, Nat.add_assoc]
  | behindRange _ _ _ _ ih =>
    apply ih.of_later
    simp only [List.length_append, List.length_cons]
    omega

theorem ClassRefused.fits {offset : Nat} {viable bad : List Char} {e : CompileError}
    (h : ClassRefused offset viable bad e) : e.Fits offset viable bad := by
  cases h with
  | unclosed => exact .inl ⟨rfl, rfl⟩
  | empty => exact .inr ⟨nofun, List.cons_ne_nil _ _, rfl⟩
  | member hmembers => exact hmembers.fits

mutual

theorem ItemRefused.fits {levels offset : Nat} {inBraces : Bool} {viable bad : List Char}
    {e : CompileError} : ItemRefused levels inBraces offset viable bad e →
      e.Fits offset viable bad
  | .tooDeep => .inr ⟨nofun, List.cons_ne_nil _ _, rfl⟩
  | .empty => .inr ⟨nofun, List.cons_ne_nil _ _, rfl⟩
  | .braces halts => halts.fits.of_later (by rw [List.length_cons]; omega)
  | .positive hclass _ => hclass.fits.of_later (by rw [List.length_cons]; omega)
  | .negated hclass => hclass.fits.of_later (by simp only [List.length_cons]; omega)
  | .literal _ => .inl ⟨trivial, rfl⟩

theorem SequenceRefused.fits {levels offset : Nat} {inBraces : Bool} {viable bad : List Char}
    {e : CompileError} : SequenceRefused levels inBraces offset viable bad e →
      e.Fits offset viable bad
  | .here hitem => hitem.fits
  | .behind _ _ hrest => hrest.fits.of_later (by rw [List.length_append, Nat.add_assoc])

theorem AlternativesRefused.fits {levels offset : Nat} {viable bad : List Char}
    {e : CompileError} : AlternativesRefused levels offset viable bad e → e.Fits offset viable bad
  | .unclosed _ => .inl ⟨rfl, rfl⟩
  | .here hsequence => hsequence.fits
  | .behind _ hrest => hrest.fits.of_later (by rw [List.length_append, List.length_cons]; omega)

end

end Grammar

end PathGlob
