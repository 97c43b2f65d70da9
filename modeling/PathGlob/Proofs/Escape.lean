import Mathlib.Data.List.Forall2
import PathGlob.Pattern.Escape
import PathGlob.Pattern.Exact
import PathGlob.Proofs.Search.Decision
import PathGlob.Proofs.Search.Ends
import PathGlob.Proofs.Syntax.Concatenation
import PathGlob.Proofs.Syntax.RoundTrip

/-!
# Escaped texts

An escaped text reads as the nodes for the text, at top level and inside braces alike, and these
nodes walk a path along the text and nowhere else. So with `fullMatch` the pattern of an escaped
text takes the paths that are the text up to the choice of separators, and a group of escaped texts
takes the paths that are one of the texts.

Both halves are inductions on the text that put one rune before it. In a pattern text that rune is
joined to the literal behind it, if there is one, and walking does not notice: one literal for two
that meet is walked as the two.
-/

namespace PathGlob

/-! ## Walking joined sequences -/

theorem Path.spells_append (path : Path) (pos : Nat) (runes runes' : List Char) :
    path.spells pos (runes ++ runes') =
      (path.spells pos runes && path.spells (pos + runes.length) runes') := by
  induction runes generalizing pos with
  | nil => rfl
  | cons r runes ih =>
    rw [List.cons_append, spells, spells, ih, Bool.and_assoc, List.length_cons, Nat.add_assoc,
      Nat.add_comm 1]

namespace Search

variable {path : Path} {flags : Flags} {pos : Nat} {text : List Char} {e : End}

theorem sequenceEnds_literal_append (runes runes' : List Char) (rest : List Node) :
    sequenceEnds path flags (.literal (runes ++ runes') :: rest) pos =
      sequenceEnds path flags (.literal runes :: .literal runes' :: rest) pos := by
  have hnode : ∀ (runes : List Char) (rest : List Node) (pos : Nat),
      sequenceEnds path flags (.literal runes :: rest) pos =
        if path.spells pos runes then sequenceEnds path flags rest (pos + runes.length)
        else [] := by
    intro runes rest pos
    rw [sequenceEnds_cons, nodeEnds]
    split <;> simp [End.goOn]
  rw [hnode, hnode, hnode, path.spells_append, List.length_append, Nat.add_assoc]
  rcases path.spells pos runes <;> simp

theorem sequenceEnds_join (left right : List Node) :
    sequenceEnds path flags (Node.join left right) pos =
      sequenceEnds path flags (left ++ right) pos := by
  unfold Node.join
  split
  · next runes runes' rest hlast =>
    obtain ⟨front, rfl⟩ := List.getLast?_eq_some_iff.mp hlast
    have hwalk : sequenceEnds path flags (.literal (runes ++ runes') :: rest) =
        sequenceEnds path flags (.literal runes :: .literal runes' :: rest) :=
      funext fun p ↦ sequenceEnds_literal_append runes runes' rest
    rw [List.dropLast_concat, List.append_assoc, List.singleton_append, sequenceEnds_append,
      sequenceEnds_append, hwalk]
  · rfl

/-! ## Walking the nodes for a text -/

theorem mem_nodeEnds_slash :
    e ∈ nodeEnds path flags .slash pos ↔ path.Shows pos '/' ∧ e = .reached (pos + 1) := by
  have hshows : path.hasSeparator pos = true ↔ path.Shows pos '/' := by
    rw [Path.hasSeparator, Option.any_eq_true]
    constructor
    · rintro ⟨r, hr, hseparator⟩
      rcases isSeparator_iff.mp hseparator with rfl | rfl
      · exact .inl hr
      · exact .inr ⟨rfl, hr⟩
    · rintro (hr | ⟨-, hr⟩)
      · exact ⟨'/', hr, rfl⟩
      · exact ⟨'\\', hr, rfl⟩
  rw [nodeEnds, ← hshows]
  split <;> simp [*]

theorem mem_nodeEnds_rune {r : Char} (hr : r ≠ '/') :
    e ∈ nodeEnds path flags (.literal [r]) pos ↔
      path.Shows pos r ∧ e = .reached (pos + 1) := by
  have hshows : path.spells pos [r] = true ↔ path.Shows pos r := by
    simp [Path.spells, Path.Shows, hr]
  rw [nodeEnds, ← hshows]
  split <;> simp [*]

/-- A walk of the nodes for a text goes along the text, and there is only one. -/
theorem mem_sequenceEnds_exactNodes :
    e ∈ sequenceEnds path flags (exactNodes text) pos ↔
      path.ShowsText pos text ∧ e = .reached (pos + text.length) := by
  induction text generalizing pos with
  | nil => simp
  | cons r text ih =>
    -- the node for the first rune, whether or not it is joined to the next one
    obtain ⟨node, hnodes, hnode⟩ : ∃ node,
        sequenceEnds path flags (exactNodes (r :: text)) pos =
            sequenceEnds path flags (node :: exactNodes text) pos ∧
          ∀ e, e ∈ nodeEnds path flags node pos ↔
            path.Shows pos r ∧ e = .reached (pos + 1) := by
      by_cases hr : r = '/'
      · subst hr
        exact ⟨.slash, by rw [exactNodes_slash], fun e ↦ mem_nodeEnds_slash⟩
      · refine ⟨.literal [r], ?_, fun e ↦ mem_nodeEnds_rune hr⟩
        rw [exactNodes_rune hr, sequenceEnds_join, List.singleton_append]
    rw [hnodes, sequenceEnds_cons, List.mem_flatMap, Path.showsText_cons, List.length_cons,
      Nat.add_comm text.length, ← Nat.add_assoc, and_assoc, ← ih]
    constructor
    · rintro ⟨e', he', hmem⟩
      obtain ⟨hshows, rfl⟩ := (hnode e').mp he'
      exact ⟨hshows, hmem⟩
    · rintro ⟨hshows, hmem⟩
      exact ⟨_, (hnode _).mpr ⟨hshows, rfl⟩, hmem⟩

theorem isMatch_reached (hfull : flags.has .fullMatch = true) :
    (End.reached pos).isMatch path flags = true ↔ path.size = pos := by
  rw [End.isMatch, hfull, Bool.not_true, Bool.false_or, beq_iff_eq, eq_comm]

theorem accepts_exactNodes (hfull : flags.has .fullMatch = true) :
    accepts path flags (exactNodes text) = true ↔ path.Agrees text := by
  rw [accepts_iff, Path.agrees_iff]
  constructor
  · rintro ⟨e, he, hmatch⟩
    obtain ⟨hshows, rfl⟩ := mem_sequenceEnds_exactNodes.mp he
    rw [isMatch_reached hfull, Nat.zero_add] at hmatch
    exact ⟨hmatch, hshows⟩
  · rintro ⟨hsize, hshows⟩
    refine ⟨_, mem_sequenceEnds_exactNodes.mpr ⟨hshows, rfl⟩, ?_⟩
    rw [isMatch_reached hfull, Nat.zero_add]
    exact hsize

/-- A group of the nodes for some texts matches what the nodes for one of the texts match, since
none of them is stopped. -/
theorem accepts_oneOf_exactNodes (hfull : flags.has .fullMatch = true) {texts : List (List Char)} :
    accepts path flags [.oneOf (texts.map exactNodes)] = true ↔
      ∃ text ∈ texts, accepts path flags (exactNodes text) = true := by
  have hgroup : ∀ e, e ∈ sequenceEnds path flags [.oneOf (texts.map exactNodes)] 0 ↔
      ∃ text ∈ texts, e ∈ sequenceEnds path flags (exactNodes text) 0 := by
    intro e
    rw [sequenceEnds_singleton, nodeEnds, if_pos hfull, mem_alternativesEnds]
    simp only [List.mem_map, exists_exists_and_eq_and]
    apply exists_congr
    intro text
    apply and_congr_right
    intro _
    -- no end is a stop, so leaving the group changes none of them
    constructor
    · rintro ⟨e', he', rfl⟩
      obtain ⟨-, rfl⟩ := mem_sequenceEnds_exactNodes.mp he'
      exact he'
    · intro he
      obtain ⟨-, rfl⟩ := mem_sequenceEnds_exactNodes.mp he
      exact ⟨_, he, rfl⟩
  simp only [accepts_iff, hgroup]
  constructor
  · rintro ⟨e, ⟨text, htext, he⟩, hmatch⟩
    exact ⟨text, htext, e, he, hmatch⟩
  · rintro ⟨text, htext, e, he, hmatch⟩
    exact ⟨e, ⟨text, htext, he⟩, hmatch⟩

end Search

/-! ## Reading an escaped text -/

namespace Grammar

variable {levels : Nat} {inBraces : Bool}

theorem spelling_escapeRune {r : Char} (hr : r ≠ '/') :
    Spelling (SpecialInLiteral inBraces) (escapeRune r) r := by
  have hsame : escapeRune r = literalRuneText r := by
    simp [escapeRune, literalRuneText, hr]
  rw [hsame]
  exact spelling_literalRuneText r

/-- **Escaping.** An escaped text stands for the nodes for the text, also inside braces. -/
theorem sequenceText_escape (text : List Char) :
    SequenceText levels inBraces (escape text) (exactNodes text) := by
  induction text with
  | nil => exact .nil
  | cons r text ih =>
    rw [escape_cons]
    by_cases hr : r = '/'
    · subst hr
      rw [exactNodes_slash]
      exact .cons_of_stops .slash ih trivial
    · have hrune : LiteralText inBraces (escapeRune r ++ []) [r] :=
        .cons (spelling_escapeRune hr) .nil
      rw [List.append_nil] at hrune
      have hitem : ItemText levels inBraces (escapeRune r) (.literal [r]) :=
        .literal hrune (List.cons_ne_nil _ _)
      obtain ⟨nodes, hnodes, hjoin⟩ := SequenceText.exists_cons hitem ih
      rw [exactNodes_rune hr, ← hjoin (by simp)]
      exact hnodes

theorem escapeRune_ne_nil (r : Char) : escapeRune r ≠ [] := by
  unfold escapeRune
  split <;> exact List.cons_ne_nil _ _

/-- Escaped texts with commas between them are empty only for a single empty text. -/
theorem intercalate_escape_ne_nil {texts : List (List Char)}
    (h : 2 ≤ texts.length ∨ ∃ text, texts = [text] ∧ text ≠ []) :
    [','].intercalate (texts.map escape) ≠ [] := by
  rcases h with hlength | ⟨text, rfl, hne⟩
  · rcases texts with _ | ⟨text, _ | ⟨next, texts⟩⟩
    · exact absurd hlength (Nat.not_succ_le_zero _)
    · exact absurd hlength (Nat.not_succ_le_self _)
    · simp
  · obtain ⟨r, text, rfl⟩ := List.exists_cons_of_ne_nil hne
    rw [List.map_singleton, List.intercalate_singleton, escape_cons]
    exact List.append_ne_nil_of_left_ne_nil (escapeRune_ne_nil r) _

theorem alternativesText_escape {texts : List (List Char)} (hne : texts ≠ []) :
    AlternativesText levels ([','].intercalate (texts.map escape)) (texts.map exactNodes) := by
  induction texts with
  | nil => exact absurd rfl hne
  | cons text texts ih =>
    rcases texts with _ | ⟨next, texts⟩
    · rw [List.map_singleton, List.map_singleton, List.intercalate_singleton]
      exact .one (sequenceText_escape text)
    · rw [List.map_cons, List.map_cons, List.map_cons, List.map_cons, List.intercalate_cons_cons,
        List.append_assoc, List.singleton_append]
      exact .cons (sequenceText_escape text) (ih (List.cons_ne_nil _ _))

end Grammar

/-! ## Compiling an escaped text -/

namespace Pattern

open Grammar Search

theorem compile_escapeText (text : String) :
    compile (escapeText text) = .ok ⟨exactNodes text.toList⟩ := by
  rw [compile, escapeText, String.toList_ofList]
  exact ofRunes_of_patternText (sequenceText_escape text.toList)

/-- **Escaping is exact.** An escaped text compiles to a separator for each slash and a literal for
each run of other runes, and as a whole its pattern matches the text, and otherwise only paths that
differ from the text in having a backslash for some of its slashes. -/
theorem escapeText_exact (text : String) :
    compile (escapeText text) = .ok ⟨exactNodes text.toList⟩ ∧
      ∀ flags : Flags, flags.has .fullMatch = true →
        accepts ⟨exactNodes text.toList⟩ (Path.ofText text) flags = true ∧
          ∀ path : Path, accepts ⟨exactNodes text.toList⟩ path flags = true ↔
            path.Agrees text.toList := by
  refine ⟨compile_escapeText text, fun flags hfull ↦ ⟨?_, fun path ↦ accepts_exactNodes hfull⟩⟩
  exact (accepts_exactNodes hfull).mpr (Path.agrees_ofText text)

/-- A backslash may stand for a slash of the text, and not the other way round. -/
theorem escapeText_exact_backslash :
    let nodes : List Node := [.literal ['a', '*'], .slash, .literal ['\\']]
    let flags := Flags.empty.insert .fullMatch
    compile "a\\*/\\\\" = .ok ⟨nodes⟩ ∧ flags.has .fullMatch = true ∧
      accepts ⟨nodes⟩ (Path.ofText "a*\\\\") flags = true ∧
        accepts ⟨nodes⟩ (Path.ofText "a*//") flags = false := by
  intro nodes flags
  obtain ⟨hcompile, hmatch⟩ := escapeText_exact "a*/\\"
  have hfull : flags.has .fullMatch = true := by decide
  obtain ⟨-, haccepts⟩ := hmatch flags hfull
  have hother : ¬(Path.ofText "a*//").Agrees "a*/\\".toList := by decide
  refine ⟨hcompile, hfull, (haccepts _).mpr (by decide), ?_⟩
  exact Bool.eq_false_iff.mpr fun htrue ↦ hother ((haccepts _).mp htrue)

/-- **Escaped texts in braces.** A group of escaped texts compiles to one node, with the nodes of
each escaped text for an alternative, and as a whole it matches the paths that are one of the texts
up to the choice of separators. There has to be something between the braces, so a single text must
not be empty. -/
theorem compile_braces_escapeText {texts : List String}
    (h : 2 ≤ texts.length ∨ ∃ text, texts = [text] ∧ text ≠ "") :
    ∃ alts, compile ("\x7b" ++ ",".intercalate (texts.map escapeText) ++ "\x7d") =
        .ok ⟨[.oneOf alts]⟩ ∧
      List.Forall₂ (fun text alt ↦ compile (escapeText text) = .ok ⟨alt⟩) texts alts ∧
      ∀ (path : Path) (flags : Flags), flags.has .fullMatch = true →
        (accepts ⟨[.oneOf alts]⟩ path flags = true ↔ ∃ text ∈ texts, path.Agrees text.toList) := by
  have hrunes : ("\x7b" ++ ",".intercalate (texts.map escapeText) ++ "\x7d").toList =
      '\x7b' :: ([','].intercalate ((texts.map String.toList).map escape) ++ ['\x7d']) := by
    simp [escapeText, Function.comp_def]
  have hne : [','].intercalate ((texts.map String.toList).map escape) ≠ [] := by
    apply intercalate_escape_ne_nil
    rcases h with hlength | ⟨text, rfl, hne⟩
    · exact .inl (by rwa [List.length_map])
    · exact .inr ⟨text.toList, rfl, by simpa using hne⟩
  have htexts : texts.map String.toList ≠ [] := by
    intro htexts
    rw [htexts] at hne
    exact hne rfl
  refine ⟨(texts.map String.toList).map exactNodes, ?_, ?_, ?_⟩
  · have hitem : ItemText maxGroupDepth false _ _ := .braces (alternativesText_escape htexts) hne
    rw [compile, hrunes]
    exact ofRunes_of_patternText hitem.sequence
  · simp only [List.forall₂_map_right_iff, List.forall₂_same]
    exact fun text _ ↦ compile_escapeText text
  · intro path flags hfull
    rw [Pattern.accepts, accepts_oneOf_exactNodes hfull]
    simp only [accepts_exactNodes hfull, List.mem_map, exists_exists_and_eq_and]

/-- A comma, a brace and an empty text in a group, and a path with the other separator. -/
theorem compile_braces_escapeText_operators :
    let texts := ["a,b", "", "/\x7d"]
    let flags := Flags.empty.insert .fullMatch
    2 ≤ texts.length ∧ flags.has .fullMatch = true ∧
      ∃ alts, compile "\x7ba\\,b,,/\\\x7d\x7d" = .ok ⟨[.oneOf alts]⟩ ∧
        List.Forall₂ (fun text alt ↦ compile (escapeText text) = .ok ⟨alt⟩) texts alts ∧
        accepts ⟨[.oneOf alts]⟩ (Path.ofText "\\\x7d") flags = true := by
  intro texts flags
  have hlength : 2 ≤ texts.length := by decide
  have hfull : flags.has .fullMatch = true := by decide
  have hsource : "\x7b" ++ ",".intercalate (texts.map escapeText) ++ "\x7d" =
      "\x7ba\\,b,,/\\\x7d\x7d" := by decide
  obtain ⟨alts, hcompile, halts, haccepts⟩ := compile_braces_escapeText (.inl hlength)
  have hagrees : (Path.ofText "\\\x7d").Agrees "/\x7d".toList := by decide
  rw [hsource] at hcompile
  refine ⟨hlength, hfull, alts, hcompile, halts, (haccepts _ _ hfull).mpr ⟨_, ?_, hagrees⟩⟩
  simp [texts]

end Pattern

end PathGlob
