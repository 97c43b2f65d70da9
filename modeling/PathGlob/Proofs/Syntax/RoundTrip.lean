import PathGlob.Proofs.Syntax.Complete
import PathGlob.Syntax.Canonical

/-!
# Reading canonical text back

What compiles is canonical, and the text of a canonical sequence compiles to the sequence. Both go
through the grammar: whatever a text of the grammar stands for is canonical, and the text of a
canonical sequence is a text of the grammar for it.

Two nodes may meet in a canonical sequence exactly if the grammar allows them side by side, so one
lemma serves both directions. In the second direction it also matters which runes are escaped. A
literal escapes more than the grammar asks for at top level, which lets its text stand inside braces
as well, and a class escapes the dash and the exclamation mark wherever they stand, so its members
are never taken for ranges and never negate it.
-/

namespace PathGlob

open Grammar Node

variable {inBraces : Bool} {levels : Nat} {text : List Char} {node : Node} {nodes : List Node}
  {alts : List (List Node)}

/-! ## Neighbours -/

theorem mayMeet_iff (h : SequenceText levels inBraces text nodes) :
    (∀ next ∈ nodes.head?, MayMeet node next) ↔
      (node = .anyText → text.head? ≠ some '*') ∧
        ∀ runes runes', node = .literal runes → nodes.head? ≠ some (.literal runes') := by
  cases h with
  | nil => simp
  | cons hfirst =>
    simp only [List.head?_cons, Option.mem_some_iff, forall_eq']
    constructor
    · intro hmeet
      constructor
      · rintro rfl hstar
        obtain ⟨r, rest, rfl, -⟩ := hfirst.head
        cases hstar
        rcases hfirst.of_star with rfl | rfl <;> exact hmeet
      · rintro runes runes' rfl heq
        cases heq
        exact hmeet
    · rintro ⟨hstar, hliteral⟩
      unfold MayMeet
      split
      · exact hliteral _ _ rfl rfl
      · cases hfirst
        exact hstar rfl rfl
      · cases hfirst
        exact hstar rfl rfl
      · trivial

/-! ## Classes -/

theorem isMember_iff {alt : List Node} :
    IsMember alt ↔ (∃ r, alt = [.literal [r]]) ∨ ∃ lo hi, alt = [.range lo hi] ∧ lo ≤ hi := by
  constructor
  · intro h
    unfold IsMember at h
    split at h
    · next r => exact .inl ⟨r, rfl⟩
    · next lo hi => exact .inr ⟨lo, hi, rfl, h⟩
    · exact h.elim
  · rintro (⟨r, rfl⟩ | ⟨lo, hi, rfl, hle⟩)
    · trivial
    · exact hle

theorem isMember_of_membersText (h : MembersText text alts) : ∀ alt ∈ alts, IsMember alt := by
  induction h with
  | nil => simp
  | rune _ _ _ ih =>
    rw [List.forall_mem_cons]
    exact ⟨trivial, ih⟩
  | range _ _ hle _ ih =>
    rw [List.forall_mem_cons]
    exact ⟨hle, ih⟩

theorem braceDepth_of_isClass (h : IsClass alts) : braceDepth (.oneOf alts) = 0 := by
  rw [braceDepth, if_pos]
  rw [List.all_eq_true]
  intro alt halt
  exact isClassMember_of_isMember (h.2 alt halt)

/-- Well-shaped alternatives that could be written as members are a class. -/
theorem isClass_of_wellShaped (h : WellShaped (.oneOf alts))
    (hmembers : alts.all isClassMember = true) : IsClass alts := by
  rw [WellShaped] at h
  rcases h with hclass | ⟨hne, -, halts⟩
  · exact hclass
  · refine ⟨hne, ?_⟩
    intro alt halt
    have hmember := List.all_eq_true.mp hmembers alt halt
    have hshape := alternativesWellShaped_iff.mp halts alt halt
    unfold isClassMember at hmember
    split at hmember
    · rw [SequenceWellShaped, WellShaped] at hshape
      exact hshape.1.elim
    · trivial
    · cases hmember

/-! ## Whatever the grammar describes is canonical -/

mutual

theorem wellShaped_of_itemText : ∀ {levels : Nat} {inBraces : Bool} {text : List Char}
    {node : Node}, ItemText levels inBraces text node → WellShaped node ∧ braceDepth node ≤ levels
  | levels, _, _, .oneOf alts, h => by
    cases h with
    | positive hmembers hne hmark =>
      have hclass : IsClass alts := ⟨hne, isMember_of_membersText hmembers⟩
      rw [WellShaped, braceDepth_of_isClass hclass]
      exact ⟨.inl hclass, Nat.zero_le levels⟩
    | braces halts hne =>
      obtain ⟨hshape, hdepth⟩ := wellShaped_of_alternativesText halts
      rw [WellShaped, braceDepth]
      -- braces are never empty, and a lone empty alternative would need them to be
      refine ⟨.inr ⟨?_, ?_, hshape⟩, ?_⟩
      · rintro rfl
        cases halts
      · rintro rfl
        cases halts with
        | one hsequence => exact hne hsequence.text_eq_nil
        | cons _ hrest => cases hrest
      · split
        · exact Nat.zero_le _
        · exact Nat.succ_le_succ hdepth
  | levels, _, _, .noneOf alts, h => by
    cases h with
    | negated hmembers hne =>
      simp only [WellShaped, braceDepth]
      exact ⟨⟨hne, isMember_of_membersText hmembers⟩, Nat.zero_le levels⟩
  | levels, _, _, .literal runes, h => by
    cases h with
    | literal hliteral hne =>
      simp only [WellShaped, braceDepth]
      exact ⟨hne, Nat.zero_le levels⟩
  | _, _, _, .range _ _, h => by cases h
  | levels, _, _, .slash, _ | levels, _, _, .globstar, _ | levels, _, _, .anyChar, _
  | levels, _, _, .anyText, _ => by
    simp only [WellShaped, braceDepth]
    exact ⟨trivial, Nat.zero_le levels⟩

theorem wellShaped_of_sequenceText : ∀ {levels : Nat} {inBraces : Bool} {text : List Char}
    {nodes : List Node}, SequenceText levels inBraces text nodes →
      SequenceWellShaped nodes ∧ sequenceBraceDepth nodes ≤ levels
  | levels, _, _, [], _ => by
    rw [SequenceWellShaped, sequenceBraceDepth]
    exact ⟨trivial, Nat.zero_le levels⟩
  | levels, _, _, node :: nodes, h => by
    cases h with
    | cons hfirst htext hstar hliteral =>
      obtain ⟨hnode, hnodeDepth⟩ := wellShaped_of_itemText hfirst
      obtain ⟨hnodes, hnodesDepth⟩ := wellShaped_of_sequenceText htext
      rw [SequenceWellShaped, sequenceBraceDepth]
      refine ⟨⟨hnode, ?_, hnodes⟩, Nat.max_le.mpr ⟨hnodeDepth, hnodesDepth⟩⟩
      exact (mayMeet_iff htext).mpr ⟨hstar, hliteral⟩

theorem wellShaped_of_alternativesText : ∀ {levels : Nat} {text : List Char}
    {alts : List (List Node)}, AlternativesText levels text alts →
      AlternativesWellShaped alts ∧ alternativesBraceDepth alts ≤ levels
  | levels, _, [], h => by cases h
  | levels, _, alt :: alts, h => by
    rw [AlternativesWellShaped, alternativesBraceDepth, Nat.max_le]
    cases h with
    | one hsequence =>
      obtain ⟨halt, hdepth⟩ := wellShaped_of_sequenceText hsequence
      rw [AlternativesWellShaped, alternativesBraceDepth]
      exact ⟨⟨halt, trivial⟩, hdepth, Nat.zero_le levels⟩
    | cons hsequence hrest =>
      obtain ⟨halt, hdepth⟩ := wellShaped_of_sequenceText hsequence
      obtain ⟨halts, hrestDepth⟩ := wellShaped_of_alternativesText hrest
      exact ⟨⟨halt, halts⟩, hdepth, hrestDepth⟩

end

/-! ## The text of a canonical sequence is in the grammar -/

theorem spelling_literalRuneText (r : Char) :
    Spelling (SpecialInLiteral inBraces) (literalRuneText r) r := by
  unfold literalRuneText
  split
  · exact .escaped r
  · next hr =>
    simp only [isOperator, Bool.or_eq_true, decide_eq_true_eq, not_or] at hr
    refine .bare ?_ ?_
    · simp [SpecialInLiteral, hr]
    · simp [hr]

theorem literalText_flatMap (runes : List Char) :
    LiteralText inBraces (runes.flatMap literalRuneText) runes := by
  induction runes with
  | nil => exact .nil
  | cons r runes ih =>
    rw [List.flatMap_cons]
    exact .cons (spelling_literalRuneText r) ih

theorem classRune_classRuneText (r : Char) : ClassRune (classRuneText r) r := by
  unfold classRuneText
  split
  · exact .escaped r
  · next hr =>
    simp only [Bool.or_eq_true, decide_eq_true_eq, not_or] at hr
    exact .bare hr.1.1.1 hr.1.1.2

theorem head?_classRuneText (r : Char) (more : List Char) :
    (classRuneText r ++ more).head? ≠ some '-' ∧ (classRuneText r ++ more).head? ≠ some '!' := by
  unfold classRuneText
  split
  · simp
  · next hr =>
    simp only [Bool.or_eq_true, decide_eq_true_eq, not_or] at hr
    simp [hr]

theorem head?_membersText (h : ∀ alt ∈ alts, IsMember alt) :
    (Node.membersText alts).head? ≠ some '-' ∧ (Node.membersText alts).head? ≠ some '!' := by
  cases alts with
  | nil => simp [Node.membersText]
  | cons alt alts =>
    rcases isMember_iff.mp (h alt List.mem_cons_self) with ⟨r, rfl⟩ | ⟨lo, hi, rfl, -⟩
    · simp only [Node.membersText, List.flatMap_cons, List.append_assoc]
      exact head?_classRuneText r _
    · simp only [Node.membersText, classRangeText, List.append_assoc]
      exact head?_classRuneText lo _

theorem membersText_of_isMember (h : ∀ alt ∈ alts, IsMember alt) :
    MembersText (Node.membersText alts) alts := by
  induction alts with
  | nil =>
    rw [Node.membersText]
    exact .nil
  | cons alt alts ih =>
    rw [List.forall_mem_cons] at h
    have hhead := head?_membersText h.2
    rcases isMember_iff.mp h.1 with ⟨r, rfl⟩ | ⟨lo, hi, rfl, hle⟩
    · simp only [Node.membersText, List.flatMap_cons, List.flatMap_nil, List.append_nil]
      refine .rune (classRune_classRuneText r) (ih h.2) ?_
      intro next rest heq
      rw [heq] at hhead
      exact hhead.1 rfl
    · simp only [Node.membersText, classRangeText, List.append_assoc, List.cons_append]
      exact .range (classRune_classRuneText lo) (classRune_classRuneText hi) hle (ih h.2)

mutual

theorem itemText_text : ∀ {node : Node} {levels : Nat} {inBraces : Bool}, WellShaped node →
    braceDepth node ≤ levels → ItemText levels inBraces node.text node
  | .slash, _, _, _, _ => by
    rw [Node.text]
    exact .slash
  | .globstar, _, _, _, _ => by
    rw [Node.text]
    exact .globstar
  | .anyChar, _, _, _, _ => by
    rw [Node.text]
    exact .anyChar
  | .anyText, _, _, _, _ => by
    rw [Node.text]
    exact .anyText
  | .literal runes, _, _, hne, _ => by
    rw [WellShaped] at hne
    rw [Node.text]
    exact .literal (literalText_flatMap runes) hne
  | .range _ _, _, _, hshape, _ => by
    rw [WellShaped] at hshape
    exact hshape.elim
  | .noneOf alts, _, _, hclass, _ => by
    rw [WellShaped] at hclass
    rw [Node.text]
    exact .negated (membersText_of_isMember hclass.2) hclass.1
  | .oneOf alts, levels, inBraces, hshape, hdepth => by
    rw [Node.text]
    by_cases hmembers : alts.all isClassMember = true
    · have hclass := isClass_of_wellShaped hshape hmembers
      rw [if_pos hmembers]
      exact .positive (membersText_of_isMember hclass.2) hclass.1 (head?_membersText hclass.2).2
    · rw [WellShaped] at hshape
      rw [braceDepth, if_neg hmembers] at hdepth
      rw [if_neg hmembers]
      rcases hshape with hclass | ⟨hne, hempty, halts⟩
      · refine absurd (List.all_eq_true.mpr ?_) hmembers
        exact fun alt halt ↦ isClassMember_of_isMember (hclass.2 alt halt)
      · obtain ⟨levels, rfl⟩ : ∃ inner, levels = inner + 1 := ⟨levels - 1, by omega⟩
        have htext := alternativesText_text hne halts (Nat.le_of_succ_le_succ hdepth)
        refine .braces htext ?_
        -- between the braces there is nothing only if the one alternative is empty
        intro heq
        rw [heq] at htext
        exact hempty htext.alts_eq

theorem sequenceText_text : ∀ {nodes : List Node} {levels : Nat} {inBraces : Bool},
    SequenceWellShaped nodes → sequenceBraceDepth nodes ≤ levels →
      SequenceText levels inBraces (Node.sequenceText nodes) nodes
  | [], _, _, _, _ => by
    rw [sequenceText_nil]
    exact .nil
  | node :: nodes, levels, inBraces, hshape, hdepth => by
    rw [SequenceWellShaped] at hshape
    rw [sequenceBraceDepth, Nat.max_le] at hdepth
    obtain ⟨hnode, hmeet, hnodes⟩ := hshape
    have htext : SequenceText levels inBraces (Node.sequenceText nodes) nodes :=
      sequenceText_text hnodes hdepth.2
    obtain ⟨hstar, hliteral⟩ := (mayMeet_iff htext).mp hmeet
    rw [sequenceText_cons]
    exact .cons (itemText_text hnode hdepth.1) htext hstar hliteral

theorem alternativesText_text : ∀ {alts : List (List Node)} {levels : Nat}, alts ≠ [] →
    AlternativesWellShaped alts → alternativesBraceDepth alts ≤ levels →
      AlternativesText levels (Node.alternativesText alts) alts
  | [], _, hne, _, _ => absurd rfl hne
  | [alt], _, _, hshape, hdepth => by
    rw [AlternativesWellShaped] at hshape
    rw [alternativesBraceDepth, Nat.max_le] at hdepth
    rw [Node.alternativesText]
    exact .one (sequenceText_text hshape.1 hdepth.1)
  | alt :: next :: alts, _, _, hshape, hdepth => by
    rw [AlternativesWellShaped] at hshape
    rw [alternativesBraceDepth, Nat.max_le] at hdepth
    rw [Node.alternativesText]
    · exact .cons (sequenceText_text hshape.1 hdepth.1)
        (alternativesText_text (List.cons_ne_nil _ _) hshape.2 hdepth.2)
    · exact fun heq ↦ List.cons_ne_nil _ _ heq

end

/-! ## Reading back -/

namespace Pattern

theorem canonical_of_compile {source : String} {p : Pattern} (h : compile source = .ok p) :
    Canonical p.nodes := by
  obtain ⟨hshape, hdepth⟩ := wellShaped_of_sequenceText (patternText_of_ofRunes h)
  exact ⟨hshape, hdepth⟩

theorem compile_text (h : Canonical nodes) :
    compile (toString (Pattern.mk nodes)) = .ok ⟨nodes⟩ := by
  have hrunes : (toString (Pattern.mk nodes)).toList = Node.sequenceText nodes :=
    String.toList_ofList
  rw [compile, hrunes]
  exact ofRunes_of_patternText (sequenceText_text h.wellShaped h.braceDepth_le)

/-- **Rendering and compiling are inverse.** What compiles is canonical, the text of a canonical
sequence compiles to the sequence, and so the text of what compiled compiles to the same. -/
theorem compile_toString :
    (∀ (source : String) (p : Pattern), compile source = .ok p → Canonical p.nodes) ∧
      (∀ nodes : List Node, Canonical nodes →
        compile (toString (Pattern.mk nodes)) = .ok ⟨nodes⟩) ∧
      ∀ (source : String) (p : Pattern), compile source = .ok p →
        compile (toString p) = .ok p := by
  refine ⟨?_, ?_, ?_⟩
  · intro source p h
    exact canonical_of_compile h
  · intro nodes h
    exact compile_text h
  · intro source p h
    exact compile_text (canonical_of_compile h)

/-- Runes in braces come back in brackets, and stand for the same. -/
theorem compile_toString_braces :
    let p : Pattern := ⟨[.oneOf [[.literal ['a']], [.oneOf [[.literal ['b']], [.literal ['-']]]],
      [.literal ['c', ','], .slash]], .anyText, .anyChar]⟩
    compile "\x7ba,\x7bb,-\x7d,c\\,/\x7d*?" = .ok p ∧ Canonical p.nodes ∧
      toString p = "\x7ba,[b\\-],c\\,/\x7d*?" ∧ compile (toString (Pattern.mk p.nodes)) = .ok p ∧
      compile (toString p) = .ok p := by
  intro p
  have hcompile : compile "\x7ba,\x7bb,-\x7d,c\\,/\x7d*?" = .ok p := by cbv
  have hcanonical : Canonical p.nodes := by
    constructor
    · simp [p, SequenceWellShaped, WellShaped, AlternativesWellShaped, IsClass, IsMember, MayMeet]
    · decide
  refine ⟨hcompile, compile_toString.1 _ _ hcompile, by cbv, ?_, ?_⟩
  · exact compile_toString.2.1 p.nodes hcanonical
  · exact compile_toString.2.2 _ _ hcompile

end Pattern

end PathGlob
