import Mathlib.Data.List.Basic
import PathGlob.Proofs.Syntax.RefusalReading

/-!
# Incomplete and hopeless texts

A refused text falls into a part that is in order and a part that starts with what is wrong. The
first part can always be completed: whatever is open is closed, and something is put where something
has to stand. The second part, if there is any, refuses the text whatever comes behind it, since
reading never looks beyond the rune that is wrong.

So an error that says only that the text ended too early can be mended by writing on, and every
other error is there to stay.
-/

namespace PathGlob

theorem Node.stops_congr {inBraces : Bool} {text text' : List Char} (h : text.head? = text'.head?)
    {node : Node} (hstops : node.Stops inBraces text) : node.Stops inBraces text' := by
  cases node with
  | anyText | literal => rwa [Node.Stops, ← h]
  | slash | globstar | anyChar | range | oneOf | noneOf => trivial

theorem Node.stops_slash {inBraces : Bool} {text : List Char} (h : text.head? = some '/')
    (node : Node) : node.Stops inBraces text := by
  cases node with
  | anyText => rw [Node.Stops, h]; decide
  | literal =>
    rw [Node.Stops, h]
    rintro r ⟨⟩
    exact endsLiteral_of_startsItem (by decide)
  | slash | globstar | anyChar | range | oneOf | noneOf => trivial

namespace Grammar

variable {levels offset : Nat} {inBraces : Bool} {viable bad : List Char} {e : CompileError}

/-! ## What is wrong stays wrong -/

/-- Whether a dash makes a range of the rune before a refused member does not depend on anything
behind the part that is in order. -/
theorem MembersRefused.no_dash (h : MembersRefused offset viable bad e)
    (hdash : ∀ next rest, viable ++ bad ≠ '-' :: next :: rest) (more : List Char) :
    ∀ next rest, viable ++ more ≠ '-' :: next :: rest := by
  intro next rest heq
  -- behind a dash the part that is in order has another rune, so the dash is decided by this part
  obtain ⟨r, text, rfl, -⟩ := h.head
  obtain rfl : r = '-' := List.head_eq_of_cons_eq heq
  obtain ⟨r, text, rfl, -⟩ := h.head_of_dash rfl
  exact hdash r (text ++ bad) rfl

theorem MemberRefused.append (h : MemberRefused offset viable bad e) (hbad : bad ≠ [])
    (more : List Char) : MemberRefused offset viable (bad ++ more) e := by
  cases h with
  | dangling | danglingBound => exact absurd rfl hbad
  | backwards hfirst hlast hlt =>
    rw [List.append_assoc]
    exact .backwards hfirst hlast hlt

theorem MembersRefused.append (h : MembersRefused offset viable bad e) (hbad : bad ≠ [])
    (more : List Char) : MembersRefused offset viable (bad ++ more) e := by
  induction h with
  | here hmember => exact .here (hmember.append hbad more)
  | behindRune hfirst hrest hdash ih =>
    exact .behindRune hfirst (ih hbad) (hrest.no_dash hdash _)
  | behindRange hfirst hlast hle _ ih => exact .behindRange hfirst hlast hle (ih hbad)

theorem ClassRefused.append (h : ClassRefused offset viable bad e) (hbad : bad ≠ [])
    (more : List Char) : ClassRefused offset viable (bad ++ more) e := by
  cases h with
  | unclosed => exact absurd rfl hbad
  | empty => exact .empty
  | member hmembers => exact .member (hmembers.append hbad more)

theorem head?_append_more (h : viable ++ bad ≠ []) (more : List Char) :
    (viable ++ (bad ++ more)).head? = (viable ++ bad).head? := by
  rw [← List.append_assoc, List.head?_append_of_ne_nil _ h]

mutual

theorem ItemRefused.append {levels offset : Nat} {inBraces : Bool} {viable bad : List Char}
    {e : CompileError} (hbad : bad ≠ []) (more : List Char) :
    ItemRefused levels inBraces offset viable bad e →
      ItemRefused levels inBraces offset viable (bad ++ more) e
  | .tooDeep => .tooDeep
  | .empty => .empty
  | .braces halts => .braces (halts.append hbad more)
  | .positive hclass hmark => by
    refine .positive (hclass.append hbad more) ?_
    rwa [head?_append_more (List.append_ne_nil_of_right_ne_nil _ hbad)]
  | .negated hclass => .negated (hclass.append hbad more)
  | .literal _ => absurd rfl hbad

theorem SequenceRefused.append {levels offset : Nat} {inBraces : Bool} {viable bad : List Char}
    {e : CompileError} (hbad : bad ≠ []) (more : List Char) :
    SequenceRefused levels inBraces offset viable bad e →
      SequenceRefused levels inBraces offset viable (bad ++ more) e
  | .here hitem => .here (hitem.append hbad more)
  | .behind hfirst hstops hrest => by
    refine .behind hfirst (Node.stops_congr ?_ hstops) (hrest.append hbad more)
    exact (head?_append_more hrest.ne_nil more).symm

theorem AlternativesRefused.append {levels offset : Nat} {viable bad : List Char}
    {e : CompileError} (hbad : bad ≠ []) (more : List Char) :
    AlternativesRefused levels offset viable bad e →
      AlternativesRefused levels offset viable (bad ++ more) e
  | .unclosed _ => absurd rfl hbad
  | .here hsequence => .here (hsequence.append hbad more)
  | .behind hfirst hrest => .behind hfirst (hrest.append hbad more)

end

/-! ## What is in order can be completed -/

theorem MembersText.one (r : Char) : MembersText ['\\', r] [[.literal [r]]] :=
  .rune (.escaped r) .nil nofun

/-- A member that is refused at its end can be completed, and one that is refused for its upper
bound can have another. -/
theorem MemberRefused.complete (h : MemberRefused offset viable bad e) :
    ∃ more member, MembersText (viable ++ more) [member] := by
  cases h with
  | dangling => exact ⟨['a'], _, .one 'a'⟩
  | @danglingBound first lo hfirst =>
    refine ⟨[lo], [.range lo lo], ?_⟩
    have hrange := MembersText.range hfirst (.escaped lo) (Char.le_refl lo) .nil
    simpa using hrange
  | @backwards first last rest lo hi hfirst =>
    refine ⟨first, [.range lo lo], ?_⟩
    have hrange := MembersText.range hfirst hfirst (Char.le_refl lo) .nil
    simpa using hrange

theorem MembersRefused.complete (h : MembersRefused offset viable bad e) :
    ∃ more members, MembersText (viable ++ more) members ∧ members ≠ [] := by
  induction h with
  | here hmember =>
    obtain ⟨more, member, hmore⟩ := hmember.complete
    exact ⟨more, [member], hmore, List.cons_ne_nil _ _⟩
  | @behindRune _ first viable _ r _ hfirst hrest hdash ih =>
    obtain ⟨more, members, hmore, -⟩ := ih
    refine ⟨more, [.literal [r]] :: members, ?_, List.cons_ne_nil _ _⟩
    rw [List.append_assoc]
    exact .rune hfirst hmore (hrest.no_dash hdash more)
  | @behindRange _ first last viable _ lo hi _ hfirst hlast hle _ ih =>
    obtain ⟨more, members, hmore, -⟩ := ih
    refine ⟨more, [.range lo hi] :: members, ?_, List.cons_ne_nil _ _⟩
    have hrange := MembersText.range hfirst hlast hle hmore
    simpa using hrange

/-- A class that ends too early can have a member and close, and it is negated by what is there
already. -/
theorem ClassRefused.complete (h : ClassRefused offset viable bad e) :
    ∃ more members, MembersText (viable ++ more) members ∧ members ≠ [] ∧
      ((viable ++ bad).head? ≠ some '!' → (viable ++ more).head? ≠ some '!') := by
  cases h with
  | @unclosed _ members htext =>
    cases members with
    | nil =>
      -- an escaped rune, since a class needs a member and a bare one could be a mark or a bracket
      cases htext
      exact ⟨['\\', 'a'], _, .one 'a', List.cons_ne_nil _ _, fun _ ↦ by decide⟩
    | cons =>
      rw [← List.append_nil viable] at htext
      exact ⟨[], _, htext, List.cons_ne_nil _ _, id⟩
  | empty => exact ⟨['\\', 'a'], _, .one 'a', List.cons_ne_nil _ _, fun _ ↦ by decide⟩
  | member hmembers =>
    obtain ⟨more, members, hmore, hne⟩ := hmembers.complete
    refine ⟨more, members, hmore, hne, ?_⟩
    obtain ⟨r, rest, rfl, -⟩ := hmembers.head
    exact id

theorem ItemText.sequence {text : List Char} {node : Node}
    (h : ItemText levels inBraces text node) : SequenceText levels inBraces text [node] := by
  have hone := SequenceText.cons h .nil nofun nofun
  rwa [List.append_nil] at hone

theorem LiteralText.append {first text runes runes' : List Char}
    (hfirst : LiteralText inBraces first runes) (htext : LiteralText inBraces text runes') :
    LiteralText inBraces (first ++ text) (runes ++ runes') := by
  induction hfirst with
  | nil => exact htext
  | cons hspelling _ ih =>
    rw [List.append_assoc]
    exact .cons hspelling ih

/-- A text completes the part of a refused text that is in order: it makes a sequence of this part,
and an item that stopped before the refused text stops before the sequence. -/
structure Completes (levels : Nat) (inBraces : Bool) (viable bad more : List Char) : Prop where
  /-- Together they are a text of the grammar. -/
  text : ∃ nodes, SequenceText levels inBraces (viable ++ more) nodes
  /-- This text is not empty. -/
  ne_nil : viable ++ more ≠ []
  /-- It starts as the refused text did, or with a slash. -/
  head : (viable ++ bad).head? = (viable ++ more).head? ∨ (viable ++ more).head? = some '/'

theorem Completes.of_item {more : List Char} {node : Node}
    (h : ItemText levels inBraces (viable ++ more) node) (hviable : viable ≠ []) :
    Completes levels inBraces viable bad more where
  text := ⟨[node], h.sequence⟩
  ne_nil := List.append_ne_nil_of_left_ne_nil hviable _
  head := by
    rw [List.head?_append_of_ne_nil _ hviable, List.head?_append_of_ne_nil _ hviable]
    exact .inl rfl

mutual

theorem ItemRefused.complete {inBraces : Bool} : ∀ {levels offset : Nat} {viable bad : List Char}
    {e : CompileError}, ItemRefused levels inBraces offset viable bad e →
      ∃ more, Completes levels inBraces viable bad more
  | _, _, _, _, _, .tooDeep =>
    ⟨['/'], ⟨_, ItemText.slash.sequence⟩, List.cons_ne_nil _ _, .inr rfl⟩
  | _, _, _, _, _, .empty =>
    ⟨['/', '\x7d'], .of_item (.braces (.one ItemText.slash.sequence) (List.cons_ne_nil _ _))
      (List.cons_ne_nil _ _)⟩
  | _, _, _, _, _, .braces halts => by
    obtain ⟨more, alts, htext, hne⟩ := halts.complete
    have hitem : ItemText _ inBraces _ _ := .braces htext hne
    rw [List.append_assoc] at hitem
    exact ⟨more ++ ['\x7d'], .of_item hitem (List.cons_ne_nil _ _)⟩
  | levels, _, _, _, _, .positive hclass hmark => by
    obtain ⟨more, members, htext, hne, hhead⟩ := hclass.complete
    have hitem : ItemText levels inBraces _ _ := .positive htext hne (hhead hmark)
    rw [List.append_assoc] at hitem
    exact ⟨more ++ [']'], .of_item hitem (List.cons_ne_nil _ _)⟩
  | levels, _, _, _, _, .negated hclass => by
    obtain ⟨more, members, htext, hne, -⟩ := hclass.complete
    have hitem : ItemText levels inBraces _ _ := .negated htext hne
    rw [List.append_assoc] at hitem
    exact ⟨more ++ [']'], .of_item hitem (List.cons_ne_nil _ _)⟩
  | levels, _, _, _, _, @ItemRefused.literal _ _ _ text runes htext => by
    have hrune : LiteralText inBraces ['\\', 'a'] ['a'] := .cons (.escaped 'a') .nil
    have hitem : ItemText levels inBraces (text ++ ['\\', 'a']) _ :=
      .literal (htext.append hrune) (by simp)
    rw [show text ++ ['\\', 'a'] = text ++ ['\\'] ++ ['a'] by simp] at hitem
    exact ⟨['a'], .of_item hitem (by simp)⟩

theorem SequenceRefused.complete {inBraces : Bool} : ∀ {levels offset : Nat}
    {viable bad : List Char} {e : CompileError},
    SequenceRefused levels inBraces offset viable bad e →
      ∃ more, Completes levels inBraces viable bad more
  | _, _, _, _, _, .here hitem => hitem.complete
  | _, _, _, _, _, @SequenceRefused.behind _ _ _ first viable bad node _ hfirst hstops hrest => by
    obtain ⟨more, ⟨nodes, htext⟩, -, hhead⟩ := hrest.complete
    -- the completed rest starts as the refused one did or with a slash, and the item stops at both
    have hmore : node.Stops inBraces (viable ++ more) := by
      rcases hhead with hsame | hslash
      · exact Node.stops_congr hsame hstops
      · exact Node.stops_slash hslash node
    obtain ⟨r, rest, hne, -⟩ := hfirst.head
    refine ⟨more, ⟨node :: nodes, ?_⟩, ?_, .inl ?_⟩
    · rw [List.append_assoc]
      exact .cons_of_stops hfirst htext hmore
    · simp [hne]
    · simp [hne]

/-- What is in order of alternatives can be completed, to more than nothing. -/
theorem AlternativesRefused.complete : ∀ {levels offset : Nat} {viable bad : List Char}
    {e : CompileError}, AlternativesRefused levels offset viable bad e →
      ∃ more alts, AlternativesText levels (viable ++ more) alts ∧ viable ++ more ≠ []
  | _, _, text, _, _, @AlternativesRefused.unclosed _ _ _ alt htext => by
    -- an alternative may be empty, but the only one of a group may not
    rcases text with _ | ⟨r, rest⟩
    · exact ⟨['/'], _, .one ItemText.slash.sequence, List.cons_ne_nil _ _⟩
    · rw [← List.append_nil (r :: rest)] at htext
      exact ⟨[], [alt], .one htext, List.cons_ne_nil _ _⟩
  | _, _, _, _, _, .here hsequence => by
    obtain ⟨more, ⟨nodes, htext⟩, hne, -⟩ := hsequence.complete
    exact ⟨more, [nodes], .one htext, hne⟩
  | _, _, _, _, _, @AlternativesRefused.behind _ _ first viable bad alt _ hfirst hrest => by
    obtain ⟨more, alts, htext, -⟩ := hrest.complete
    refine ⟨more, alt :: alts, ?_, by simp⟩
    have hboth := AlternativesText.cons hfirst htext
    simpa using hboth

end

end Grammar

namespace Pattern

open Grammar

theorem exists_ofRunes_of_refused {viable bad : List Char} {e : CompileError}
    (h : PatternRefused viable bad e) : ∃ more p, ofRunes (viable ++ more) = .ok p := by
  obtain ⟨more, ⟨nodes, htext⟩, -, -⟩ := SequenceRefused.complete h
  exact ⟨more, ⟨nodes⟩, ofRunes_of_patternText htext⟩

theorem ofRunes_append_of_refused {viable bad : List Char} {e : CompileError}
    (h : PatternRefused viable bad e) (hbad : bad ≠ []) (more : List Char) :
    ofRunes (viable ++ bad ++ more) = .error e := by
  rw [List.append_assoc, ofRunes_eq_error]
  exact ⟨viable, bad ++ more, rfl, SequenceRefused.append hbad more h⟩

/-- **Incomplete and hopeless.** If an error says only that the text ended too early then the text
can be continued to one that compiles. With any other error the text is refused in the same way,
with the same error at the same offset, however it is continued, and the runes before that offset
can still be continued to a text that compiles. -/
theorem continuations_of_compile_error {source : String} {e : CompileError}
    (h : compile source = .error e) :
    (e.Incomplete → ∃ more p, compile (source ++ more) = .ok p) ∧
      (¬e.Incomplete → (∀ more, compile (source ++ more) = .error e) ∧
        ∃ offset, e.offset? = some offset ∧
          ∃ more p, compile (String.ofList (source.toList.take offset) ++ more) = .ok p) := by
  obtain ⟨viable, bad, hsource, hrefused⟩ := ofRunes_eq_error.mp h
  obtain ⟨more, p, hmore⟩ := exists_ofRunes_of_refused hrefused
  rcases hrefused.fits with ⟨hincomplete, rfl⟩ | ⟨hhopeless, hbad, hoffset⟩
  · refine ⟨fun _ ↦ ⟨String.ofList more, p, ?_⟩, absurd hincomplete⟩
    rw [List.append_nil] at hsource
    rw [compile, String.toList_append, String.toList_ofList, hsource, hmore]
  · refine ⟨(absurd · hhopeless), fun _ ↦ ⟨?_, viable.length, ?_, String.ofList more, p, ?_⟩⟩
    · intro more'
      rw [compile, String.toList_append, hsource]
      exact ofRunes_append_of_refused hrefused hbad _
    · rw [hoffset, Nat.zero_add]
    · rw [compile, String.toList_append, String.toList_ofList, String.toList_ofList, hsource,
        List.take_left, hmore]

/-- A range that runs backwards is there to stay, though the text before its upper bound can be
continued. With a lone backslash for an upper bound the text is only incomplete. -/
theorem continuations_of_compile_error_bound :
    let backwards : CompileError := .expected .upperBound (some 'b') 6
    (compile "\x7ba,[z-b" = .error backwards ∧
      (∀ more, compile ("\x7ba,[z-b" ++ more) = .error backwards) ∧
        ∃ more p, compile (String.ofList ("\x7ba,[z-b".toList.take 6) ++ more) = .ok p) ∧
      compile "\x7ba,[z-\\" = .error (.unexpectedEnd 6) ∧
        ∃ more p, compile ("\x7ba,[z-\\" ++ more) = .ok p := by
  intro backwards
  have hbackwards : compile "\x7ba,[z-b" = .error backwards := by cbv
  have hdangling : compile "\x7ba,[z-\\" = .error (.unexpectedEnd 6) := by cbv
  obtain ⟨hstays, offset, hoffset, hbefore⟩ :=
    (continuations_of_compile_error hbackwards).2 (Option.some_ne_none 'b')
  obtain rfl : 6 = offset := Option.some.inj hoffset
  exact ⟨⟨hbackwards, hstays, hbefore⟩, hdangling,
    (continuations_of_compile_error hdangling).1 trivial⟩

end Pattern

end PathGlob
