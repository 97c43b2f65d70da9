import PathGlob.Proofs.Syntax.Sound

/-!
# Whatever is in the grammar is read

A text of the grammar is read as what it stands for, whatever was read before it, if what is left
behind it lets reading stop there. Groups have to find a level for each of their depth, so fewer
levels than the depth leaves are enough.

Together with soundness this makes the grammar a description of reading, and since reading gives one
result, a text stands for one sequence of nodes at most.
-/

namespace PathGlob.Reading

open Cursor Grammar

variable {inBraces : Bool} {r : Char} {rest text : List Char} {offset depth levels : Nat}
  {c start next : Cursor}

/-! ## Runes and classes -/

theorem outcome_classRune {special : Char → Prop} (h : Spelling special text r)
    (hpasses : c.Passes text next) : outcome (classRune c) = .ok (r, next) := by
  obtain ⟨rest, offset, depth⟩ := c
  cases h with
  | bare hspecial hbackslash =>
    obtain ⟨rest, rfl, hnext⟩ := passes_cons.mp hpasses
    rw [passes_nil.mp hnext, classRune_cons, outcome_rune hbackslash]
  | escaped =>
    obtain ⟨rest, rfl, hpasses⟩ := passes_cons.mp hpasses
    obtain ⟨rest, rfl, hnext⟩ := passes_cons.mp hpasses
    rw [passes_nil.mp hnext, classRune_cons, outcome_rune_escaped]

theorem outcome_member_range_of_classRune {mid : Cursor} {first last : List Char} {lo hi : Char}
    (hfirst : ClassRune first lo) (hlast : ClassRune last hi) (hle : lo ≤ hi)
    (hmid : c.Passes first mid) (hnext : mid.Passes ('-' :: last) next) :
    outcome (member c) = .ok (.range lo hi, next) := by
  have hlo := outcome_classRune hfirst hmid
  obtain ⟨rest, offset, depth⟩ := mid
  obtain ⟨rest, rfl, hnext⟩ := passes_cons.mp hnext
  have hhi := outcome_classRune hlast hnext
  obtain ⟨r, more, rfl, hr⟩ := head_of_classRune hlast
  obtain ⟨rest, rfl, -⟩ := passes_cons.mp hnext
  rw [outcome_member_range hlo hr, hhi]
  simp only [Except.bind, if_neg (Char.not_lt.mpr hle)]

theorem outcome_members_of_member {mid behind : Cursor} {first : List Char} {lo : Char}
    {node : Node} {soFar : List (List Node)} {hc : c.rest.length < start.rest.length}
    (hfirst : ClassRune first lo) (hmid : c.Passes first mid)
    (hmember : outcome (member c) = .ok (node, behind)) :
    ∃ hlt, outcome (members start soFar c hc) =
      outcome (members start ([node] :: soFar) behind hlt) := by
  obtain ⟨rest, offset, depth⟩ := c
  obtain ⟨r, more, rfl, hr⟩ := head_of_classRune hfirst
  obtain ⟨rest, rfl, -⟩ := passes_cons.mp hmid
  obtain ⟨hlt, heq⟩ := outcome_members_of_ok hr hmember
  exact ⟨_, heq start soFar hc⟩

theorem outcome_members {members' : List (List Node)} (h : MembersText text members') :
    ∀ {c : Cursor} {soFar : List (List Node)} {hc : c.rest.length < start.rest.length},
      c.Passes (text ++ [']']) next → (soFar = [] → members' ≠ []) →
        outcome (members start soFar c hc) = .ok (soFar.reverse ++ members', next) := by
  induction h with
  | nil =>
    rintro ⟨rest, offset, depth⟩ soFar hc hpasses hne
    obtain ⟨rest, rfl, hnext⟩ := passes_cons.mp hpasses
    cases soFar with
    | nil => exact absurd rfl (hne rfl)
    | cons member soFar =>
      rw [outcome_members_close, passes_nil.mp hnext]
      simp
  | @rune first text lo members' hfirst htext hdash ih =>
    intro c soFar hc hpasses _
    rw [List.append_assoc] at hpasses
    obtain ⟨mid, hmid, hnext⟩ := passes_append.mp hpasses
    -- a dash may follow, but then the closing bracket comes next: the grammar rules out the rest
    have hsingle : ∀ r more, mid.rest = '-' :: r :: more → r = ']' := by
      intro r more hrest
      rw [hnext.rest_eq] at hrest
      rcases text with _ | ⟨r', _ | ⟨r'', text⟩⟩
      · cases hrest
      · cases hrest
        rfl
      · cases hrest
        exact absurd rfl (hdash _ _)
    have hmember := outcome_member_single (outcome_classRune hfirst hmid) hsingle
    obtain ⟨_, heq⟩ := outcome_members_of_member hfirst hmid hmember
    rw [heq, ih hnext (by simp)]
    simp
  | @range first last text lo hi members' hfirst hlast hle htext ih =>
    intro c soFar hc hpasses _
    have hassoc : first ++ '-' :: (last ++ text) ++ [']'] =
        first ++ ('-' :: last ++ (text ++ [']'])) := by simp
    rw [hassoc] at hpasses
    obtain ⟨mid, hmid, hpasses⟩ := passes_append.mp hpasses
    obtain ⟨behind, hbehind, hnext⟩ := passes_append.mp hpasses
    have hmember := outcome_member_range_of_classRune hfirst hlast hle hmid hbehind
    obtain ⟨_, heq⟩ := outcome_members_of_member hfirst hmid hmember
    rw [heq, ih hnext (by simp)]
    simp

theorem outcome_bracketClass_of_members {members : List (List Node)}
    (h : MembersText text members) (hne : members ≠ []) (hmark : text.head? ≠ some '!')
    (hpasses : Passes ⟨rest, offset + 1, depth⟩ (text ++ [']']) next) :
    outcome (bracketClass rest offset depth) = .ok (.oneOf members, next) := by
  have hrest : rest = text ++ [']'] ++ next.rest := hpasses.rest_eq
  have hhead : rest.head? ≠ some '!' := by
    rw [hrest]
    cases text with
    | nil => simp
    | cons => exact hmark
  rw [outcome_bracketClass hhead, outcome_members h hpasses fun _ ↦ hne]
  rfl

theorem outcome_bracketClass_negated_of_members {members : List (List Node)}
    (h : MembersText text members) (hne : members ≠ [])
    (hpasses : Passes ⟨rest, offset + 2, depth⟩ (text ++ [']']) next) :
    outcome (bracketClass ('!' :: rest) offset depth) = .ok (.noneOf members, next) := by
  rw [outcome_bracketClass_negated, outcome_members h hpasses fun _ ↦ hne]
  rfl

/-! ## Literals -/

theorem outcome_literalTail {runes : List Char} (h : LiteralText inBraces text runes)
    (hend : ∀ r ∈ next.rest.head?, endsLiteral inBraces r = true) :
    ∀ {c : Cursor} {soFar : List Char} {hc : c.rest.length < start.rest.length},
      c.Passes text next → outcome (literalTail inBraces start soFar c hc) =
        .ok (.literal (soFar.reverse ++ runes), next) := by
  induction h with
  | nil =>
    rintro ⟨rest, offset, depth⟩ soFar hc hpasses
    obtain rfl := passes_nil.mp hpasses
    cases rest with
    | nil => rw [outcome_literalTail_nil, List.append_nil]
    | cons r rest => rw [outcome_literalTail_ends (hend r rfl), List.append_nil]
  | cons hfirst htext ih =>
    rintro ⟨rest, offset, depth⟩ soFar hc hpasses
    obtain ⟨mid, hmid, hnext⟩ := passes_append.mp hpasses
    have hrune := outcome_classRune hfirst hmid
    obtain ⟨r, more, rfl, hr⟩ := head_of_literalRune hfirst
    obtain ⟨rest, rfl, -⟩ := passes_cons.mp hmid
    obtain ⟨_, heq⟩ := outcome_literalTail_of_ok hr hrune
    rw [heq, ih hnext]
    simp

theorem outcome_literal {runes : List Char} (h : LiteralText inBraces text runes)
    (hne : runes ≠ []) (hend : ∀ r ∈ next.rest.head?, endsLiteral inBraces r = true)
    (hpasses : Passes ⟨r :: rest, offset, depth⟩ text next) :
    outcome (literal inBraces r rest offset depth) = .ok (.literal runes, next) := by
  cases h with
  | nil => exact absurd rfl hne
  | cons hfirst htext =>
    obtain ⟨mid, hmid, hnext⟩ := passes_append.mp hpasses
    obtain ⟨_, heq⟩ := outcome_literal_of_ok (outcome_classRune hfirst hmid)
    rw [heq, outcome_literalTail htext hend hnext]
    rfl

/-! ## Items, sequences and alternatives -/

mutual

theorem outcome_item {inBraces : Bool} {r : Char} {rest text : List Char}
    {offset depth levels : Nat} {next : Cursor} : ∀ {node : Node},
    ItemText levels inBraces text node → Passes ⟨r :: rest, offset, depth⟩ text next →
      levels + depth ≤ maxGroupDepth → node.Stops inBraces next.rest →
      outcome (item inBraces r rest offset depth) = .ok (node, next)
  | .slash, htext, hpasses, _, _ => by
    cases htext
    obtain ⟨rfl, hnext⟩ := passes_cons_cons.mp hpasses
    rw [passes_nil.mp hnext, outcome_item_slash]
  | .globstar, htext, hpasses, _, _ => by
    cases htext
    obtain ⟨rfl, hsecond⟩ := passes_cons_cons.mp hpasses
    obtain ⟨rest, rfl, hnext⟩ := passes_cons.mp hsecond
    rw [passes_nil.mp hnext, outcome_item_globstar]
  | .anyChar, htext, hpasses, _, _ => by
    cases htext
    obtain ⟨rfl, hnext⟩ := passes_cons_cons.mp hpasses
    rw [passes_nil.mp hnext, outcome_item_anyChar]
  | .anyText, htext, hpasses, _, hstops => by
    cases htext
    obtain ⟨rfl, hnext⟩ := passes_cons_cons.mp hpasses
    obtain rfl := passes_nil.mp hnext
    rw [outcome_item_anyText hstops]
  | .literal runes, htext, hpasses, _, hstops => by
    cases htext with
    | literal hliteral hne =>
      obtain ⟨r', more, rfl, hr⟩ := hliteral.head hne
      obtain ⟨rfl, -⟩ := passes_cons_cons.mp hpasses
      rw [outcome_item_literal (endsLiteral_eq_false.mp hr).1]
      exact outcome_literal hliteral hne hstops hpasses
  | .range _ _, htext, _, _, _ => by cases htext
  | .noneOf alts, htext, hpasses, _, _ => by
    cases htext with
    | negated hmembers hne =>
      obtain ⟨rfl, hmark⟩ := passes_cons_cons.mp hpasses
      obtain ⟨rest, rfl, hinside⟩ := passes_cons.mp hmark
      rw [outcome_item_bracket, outcome_bracketClass_negated_of_members hmembers hne hinside]
  | .oneOf alts, htext, hpasses, hlevels, _ => by
    cases htext with
    | positive hmembers hne hmark =>
      obtain ⟨rfl, hinside⟩ := passes_cons_cons.mp hpasses
      rw [outcome_item_bracket, outcome_bracketClass_of_members hmembers hne hmark hinside]
    | @braces levels _ text _ halts hne =>
      obtain ⟨rfl, hinside⟩ := passes_cons_cons.mp hpasses
      -- the level that the grammar takes for the group is the one that its depth takes
      have hinner : levels + (depth + 1) ≤ maxGroupDepth := by omega
      rw [outcome_item_braces (by omega),
        outcome_alternatives halts hinside.deeper hinner fun _ ↦ hne]
      rfl

/-- A sequence is read as its nodes, if what is left behind it ends a sequence. -/
theorem outcome_sequence {inBraces : Bool} {text : List Char} {levels : Nat}
    {c start next : Cursor} : ∀ {nodes soFar : List Node} {hc : c.rest.length ≤ start.rest.length},
    SequenceText levels inBraces text nodes → c.Passes text next →
      levels + c.depth ≤ maxGroupDepth → EndsSequence inBraces next.rest →
      outcome (sequence inBraces start soFar c hc) = .ok (soFar.reverse ++ nodes, next)
  | [], soFar, hc, htext, hpasses, _, hend => by
    obtain ⟨rest, offset, depth⟩ := c
    obtain rfl := htext.text_eq_nil
    obtain rfl := passes_nil.mp hpasses
    cases rest with
    | nil => rw [outcome_sequence_nil, List.append_nil]
    | cons r rest => rw [outcome_sequence_ends (hend r rfl), List.append_nil]
  | node :: nodes, soFar, hc, htext, hpasses, hlevels, hend => by
    obtain ⟨rest, offset, depth⟩ := c
    cases htext with
    | cons hfirst htext hstar hliteral =>
      obtain ⟨mid, hmid, hnext⟩ := passes_append.mp hpasses
      -- what the grammar allows side by side is where the reading of the item stops
      have hstops : node.Stops inBraces mid.rest := by
        rw [hnext.rest_eq]
        exact (htext.stops_iff hend).mpr ⟨hstar, hliteral⟩
      obtain ⟨r, more, rfl, hr, -⟩ := hfirst.head
      obtain ⟨rest, rfl, -⟩ := passes_cons.mp hmid
      have hitem := outcome_item hfirst hmid hlevels hstops
      obtain ⟨_, heq⟩ := outcome_sequence_of_ok hr hitem
      have hdepth : levels + mid.depth ≤ maxGroupDepth := by rwa [hmid.depth_eq]
      rw [heq, outcome_sequence htext hnext hdepth hend]
      simp

theorem outcome_alternatives {text : List Char} {levels : Nat} {c start next : Cursor} :
    ∀ {alts soFar : List (List Node)} {hc : c.rest.length < start.rest.length},
    AlternativesText levels text alts → c.Passes (text ++ ['\x7d']) next →
      levels + c.depth ≤ maxGroupDepth → (soFar = [] → text ≠ []) →
      outcome (alternatives start soFar c hc) = .ok (soFar.reverse ++ alts, next)
  | [], _, _, htext, _, _, _ => by cases htext
  | alt :: alts, soFar, hc, htext, hpasses, hlevels, hne => by
    cases htext with
    | one hsequence =>
      obtain ⟨mid, hmid, hnext⟩ := passes_append.mp hpasses
      obtain ⟨rest, offset, depth⟩ := mid
      obtain ⟨rest, rfl, hnext⟩ := passes_cons.mp hnext
      have hhead : outcome (sequence true c [] c (Nat.le_refl _)) =
          .ok (alt, ⟨'\x7d' :: rest, offset, depth⟩) :=
        outcome_sequence hsequence hmid hlevels (endsSequence_cons rfl)
      -- nothing between the braces would be no text
      have hempty : (soFar.isEmpty && alt.isEmpty) = false := by
        rw [Bool.and_eq_false_imp]
        simp only [List.isEmpty_iff, List.isEmpty_eq_false_iff]
        rintro rfl rfl
        exact hne rfl hsequence.text_eq_nil
      rw [outcome_alternatives_close (by decide) hhead, hempty, passes_nil.mp hnext]
      simp
    | @cons _ first text _ _ hsequence halts =>
      have hassoc : first ++ ',' :: text ++ ['\x7d'] = first ++ ',' :: (text ++ ['\x7d']) := by
        simp
      rw [hassoc] at hpasses
      obtain ⟨mid, hmid, hnext⟩ := passes_append.mp hpasses
      obtain ⟨rest, offset, depth⟩ := mid
      obtain ⟨rest, rfl, hnext⟩ := passes_cons.mp hnext
      have hhead : outcome (sequence true c [] c (Nat.le_refl _)) =
          .ok (alt, ⟨',' :: rest, offset, depth⟩) :=
        outcome_sequence hsequence hmid hlevels (endsSequence_cons rfl)
      have hdepth : levels + depth ≤ maxGroupDepth := by rwa [← hmid.depth_eq] at hlevels
      obtain ⟨_, heq⟩ := outcome_alternatives_comma hhead
      rw [heq, outcome_alternatives halts hnext hdepth (by simp)]
      simp

end

end PathGlob.Reading

/-! ## Whole texts -/

namespace PathGlob.Pattern

open Reading

variable {runes : List Char} {p : Pattern}

theorem ofRunes_eq_ok :
    ofRunes runes = .ok p ↔
      ∃ next, outcome (sequence false (.ofText runes) [] (.ofText runes) (Nat.le_refl _)) =
        .ok (p.nodes, next) := by
  rw [ofRunes, map_eq_ok]
  constructor
  · rintro ⟨reading, hreading, rfl⟩
    exact ⟨reading.next, by rw [hreading, outcome_ok]⟩
  · rintro ⟨next, h⟩
    obtain ⟨hnext, hreading⟩ := outcome_eq_ok.mp h
    exact ⟨_, hreading, rfl⟩

/-- Nothing is left of a text that compiles, so the whole of it is in the grammar. -/
theorem patternText_of_ofRunes (h : ofRunes runes = .ok p) :
    Grammar.PatternText runes p.nodes := by
  obtain ⟨next, hsequence⟩ := ofRunes_eq_ok.mp h
  obtain ⟨text, nodes, hnodes, hpasses, htext, hend⟩ :=
    sequenceText_of_outcome (Nat.add_zero maxGroupDepth) hsequence
  have hrest : runes = text ++ next.rest := hpasses.rest_eq
  rw [hrest, hend.eq_nil, List.append_nil, hnodes]
  exact htext

theorem ofRunes_of_patternText {nodes : List Node} (h : Grammar.PatternText runes nodes) :
    ofRunes runes = .ok ⟨nodes⟩ := by
  have hpasses : (Cursor.ofText runes).Passes runes ⟨[], 0 + runes.length, 0⟩ :=
    ⟨(List.append_nil runes).symm, rfl, rfl⟩
  rw [ofRunes_eq_ok]
  exact ⟨_, outcome_sequence h hpasses (Nat.le_refl _) endsSequence_nil⟩

/-- **Compiling decides the grammar.** A text compiles to a sequence of nodes exactly if the grammar
says that it stands for this sequence, with brace groups nesting no deeper than is allowed. -/
theorem compile_eq_ok_iff (source : String) (nodes : List Node) :
    compile source = .ok ⟨nodes⟩ ↔ Grammar.PatternText source.toList nodes :=
  ⟨patternText_of_ofRunes, ofRunes_of_patternText⟩

end PathGlob.Pattern
