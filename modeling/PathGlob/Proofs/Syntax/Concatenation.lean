import PathGlob.Proofs.Syntax.Completion
import PathGlob.Syntax.Concatenation

/-!
# Texts in a row

Behind a text that compiles, any text reads as it does alone: it stands for the same nodes, or it is
refused in the same way and only further back. Nothing is left open where the first text ends, so
all that can happen at the seam happens between its last item and what comes behind it. If this item
does not stop there, it is a literal that takes along the literal behind it, or a star that takes
along the first star behind it. In the second case the stars of the row are paired anew, so there
are other nodes than before, but there are nodes; and where the second text is refused, it is
refused for something behind the row.
-/

namespace PathGlob

namespace Grammar

variable {levels offset : Nat} {inBraces : Bool} {first text viable bad : List Char} {node : Node}
  {nodes nodes' : List Node} {e : CompileError}

/-! ## An item before a text of the grammar -/

theorem ItemText.of_head?_star (h : ItemText levels inBraces first node)
    (hstar : (first ++ text).head? = some '*') :
    node = .anyText ∧ first = ['*'] ∨ node = .globstar ∧ first = ['*', '*'] := by
  obtain ⟨r, more, rfl, -⟩ := h.head
  obtain rfl : r = '*' := Option.some.inj hstar
  rcases h.of_star with rfl | rfl
  · rcases h
    exact .inr ⟨rfl, rfl⟩
  · rcases h
    exact .inl ⟨rfl, rfl⟩

/-- A star before a text of the grammar makes another, with the stars in front paired anew. -/
theorem SequenceText.exists_star (h : SequenceText levels inBraces text nodes) :
    ∃ nodes', SequenceText levels inBraces ('*' :: text) nodes' := by
  induction nodes generalizing text with
  | nil =>
    rw [h.text_eq_nil]
    exact ⟨_, ItemText.anyText.sequence⟩
  | cons node rest ih =>
    by_cases hstops : Node.anyText.Stops inBraces text
    · exact ⟨_, .cons_of_stops .anyText h hstops⟩
    · have hstar : text.head? = some '*' := Classical.not_not.mp hstops
      obtain ⟨first, text, rfl, hfirst, htext, -⟩ := sequenceText_cons_iff.mp h
      rcases hfirst.of_head?_star hstar with ⟨rfl, rfl⟩ | ⟨rfl, rfl⟩
      · exact ⟨_, .cons_of_stops .globstar htext trivial⟩
      · -- the first star of the pair goes with the new one, and the second is before the rest
        obtain ⟨nodes', hnodes'⟩ := ih htext
        exact ⟨_, .cons_of_stops .globstar hnodes' trivial⟩

theorem itemText_literal_iff {runes : List Char} :
    ItemText levels inBraces text (.literal runes) ↔
      LiteralText inBraces text runes ∧ runes ≠ [] := by
  constructor
  · rintro ⟨⟩
    exact ⟨‹_›, ‹_›⟩
  · rintro ⟨htext, hne⟩
    exact .literal htext hne

theorem ItemText.of_head?_literal (h : ItemText levels inBraces first node) {r : Char}
    (hr : r ∈ (first ++ text).head?) (hends : endsLiteral inBraces r = false) :
    ∃ runes, node = .literal runes := by
  obtain ⟨r', more, rfl, -, hnode | hstarts⟩ := h.head
  · exact hnode
  · obtain rfl : r' = r := Option.some.inj hr
    rw [endsLiteral_of_startsItem hstarts] at hends
    exact absurd hends (by decide)

theorem ItemText.append_literal {runes runes' : List Char}
    (hfirst : LiteralText inBraces first runes)
    (h : ItemText levels inBraces text (.literal runes')) :
    ItemText levels inBraces (first ++ text) (.literal (runes ++ runes')) := by
  obtain ⟨htext, hne⟩ := itemText_literal_iff.mp h
  exact .literal (hfirst.append htext) (List.append_ne_nil_of_right_ne_nil _ hne)

theorem SequenceText.cons_literal {runes : List Char} (hfirst : LiteralText inBraces first runes)
    (h : SequenceText levels inBraces text nodes) {r : Char} (hr : r ∈ text.head?)
    (hends : endsLiteral inBraces r = false) :
    SequenceText levels inBraces (first ++ text) (Node.join [.literal runes] nodes) := by
  rcases nodes with _ | ⟨node, nodes⟩
  · rw [h.text_eq_nil] at hr
    exact absurd hr (Option.not_mem_none r)
  · obtain ⟨second, text, rfl, hsecond, htext, hstops⟩ := sequenceText_cons_iff.mp h
    obtain ⟨runes', rfl⟩ := hsecond.of_head?_literal hr hends
    have hboth := ItemText.append_literal hfirst hsecond
    rw [Node.join_literal, ← List.append_assoc]
    exact .cons_of_stops hboth htext hstops

/-- **An item before a text.** Together they are a text of the grammar, whose nodes are joined
unless a star comes before a star. -/
theorem SequenceText.exists_cons (hfirst : ItemText levels inBraces first node)
    (h : SequenceText levels inBraces text nodes) :
    ∃ nodes', SequenceText levels inBraces (first ++ text) nodes' ∧
      (¬(node = .anyText ∧ text.head? = some '*') → nodes' = Node.join [node] nodes) := by
  by_cases hstops : node.Stops inBraces text
  · refine ⟨node :: nodes, .cons_of_stops hfirst h hstops, fun _ ↦ (Node.join_singleton ?_).symm⟩
    rw [← List.append_nil text] at hstops
    exact ((h.stops_iff endsSequence_nil).mp hstops).2
  · rcases Node.not_stops hstops with ⟨rfl, hstar⟩ | ⟨runes, rfl, r, hr, hends⟩
    · obtain ⟨nodes', hnodes'⟩ := h.exists_star
      rcases hfirst
      exact ⟨nodes', hnodes', fun hseam ↦ absurd ⟨rfl, hstar⟩ hseam⟩
    · obtain ⟨hfirst, -⟩ := itemText_literal_iff.mp hfirst
      exact ⟨_, h.cons_literal hfirst hr hends, fun _ ↦ rfl⟩

/-- **A text before a text.** Together they are a text of the grammar, whose nodes are joined
unless a star comes before a star. -/
theorem SequenceText.exists_append (hfirst : SequenceText levels inBraces first nodes)
    (h : SequenceText levels inBraces text nodes') :
    ∃ nodes'', SequenceText levels inBraces (first ++ text) nodes'' ∧
      (¬(nodes.getLast? = some .anyText ∧ text.head? = some '*') →
        nodes'' = Node.join nodes nodes') := by
  induction nodes generalizing first with
  | nil =>
    rw [hfirst.text_eq_nil]
    exact ⟨nodes', h, fun _ ↦ (Node.join_nil nodes').symm⟩
  | cons node rest ih =>
    obtain ⟨first, middle, rfl, hitem, hmiddle, hstops⟩ := sequenceText_cons_iff.mp hfirst
    rcases rest with _ | ⟨next, rest⟩
    · -- the last item, at the seam
      rw [hmiddle.text_eq_nil, List.append_nil]
      obtain ⟨nodes'', hnodes'', hjoin⟩ := SequenceText.exists_cons hitem h
      refine ⟨nodes'', hnodes'', fun hseam ↦ hjoin ?_⟩
      rintro ⟨rfl, hhead⟩
      exact hseam ⟨rfl, hhead⟩
    · -- an item further in front, which stops before the same rune as it did
      obtain ⟨nodes'', hnodes'', hjoin⟩ := ih hmiddle
      have hne : middle ≠ [] := by
        rintro rfl
        exact List.cons_ne_nil _ _ hmiddle.nodes_eq_nil
      have hmore : node.Stops inBraces (middle ++ text) := by
        apply Node.stops_congr _ hstops
        rw [List.head?_append_of_ne_nil _ hne]
      rw [List.append_assoc]
      refine ⟨_, .cons_of_stops hitem hnodes'' hmore, fun hseam ↦ ?_⟩
      rw [List.getLast?_cons_cons] at hseam
      rw [Node.join_cons (List.cons_ne_nil _ _), hjoin hseam]

/-! ## An item before a refused text -/

theorem ItemRefused.head?_ne_star (h : ItemRefused levels inBraces offset viable bad e) :
    (viable ++ bad).head? ≠ some '*' := by
  rcases h with _ | _ | _ | _ | _ | ⟨htext⟩
  case literal =>
    obtain ⟨r, rest, heq, hr⟩ := htext.head_dangling
    rw [List.append_nil, heq]
    rintro ⟨⟩
    rw [endsLiteral_of_startsItem (by decide)] at hr
    exact absurd hr (by decide)
  all_goals exact fun hstar ↦ absurd (Option.some.inj hstar) (by decide)

theorem SequenceRefused.star :
    ∀ {offset : Nat} {viable : List Char},
      SequenceRefused levels inBraces (offset + 1) viable bad e →
        SequenceRefused levels inBraces offset ('*' :: viable) bad e
  | offset, viable, h => by
    by_cases hstops : Node.anyText.Stops inBraces (viable ++ bad)
    · exact .behind .anyText hstops h
    · have hstar : (viable ++ bad).head? = some '*' := Classical.not_not.mp hstops
      rcases h with ⟨hitem⟩ | ⟨hfirst, -, hrest⟩
      · exact absurd hstar hitem.head?_ne_star
      · rw [List.append_assoc] at hstar
        rcases hfirst.of_head?_star hstar with ⟨rfl, rfl⟩ | ⟨rfl, rfl⟩
        · exact .behind .globstar trivial hrest
        · -- the first star of the pair goes with the new one, and the second is before the rest
          exact .behind .globstar trivial (SequenceRefused.star hrest)

theorem SequenceRefused.literal {runes : List Char} (hfirst : LiteralText inBraces first runes)
    (h : SequenceRefused levels inBraces (offset + first.length) viable bad e) {r : Char}
    (hr : r ∈ (viable ++ bad).head?) (hends : endsLiteral inBraces r = false) :
    SequenceRefused levels inBraces offset (first ++ viable) bad e := by
  rcases h with ⟨hitem⟩ | ⟨hsecond, hstops, hrest⟩
  · -- whatever else is refused for its first item starts with a rune that ends a literal
    have hstarts : startsItem r = false := (endsLiteral_eq_false.mp hends).1
    rcases hitem with _ | _ | _ | _ | _ | ⟨htext⟩
    case literal =>
      rw [Nat.add_assoc, ← List.length_append, ← List.append_assoc]
      exact .here (.literal (hfirst.append htext))
    all_goals
      obtain rfl := Option.some.inj hr
      exact absurd hstarts (by decide)
  · rw [List.append_assoc] at hr
    obtain ⟨runes', rfl⟩ := hsecond.of_head?_literal hr hends
    have hboth := ItemText.append_literal hfirst hsecond
    rw [Nat.add_assoc, ← List.length_append] at hrest
    rw [← List.append_assoc]
    exact .behind hboth hstops hrest

/-- **An item before a refused text.** The text is refused in the same way. -/
theorem SequenceRefused.cons (hfirst : ItemText levels inBraces first node)
    (h : SequenceRefused levels inBraces (offset + first.length) viable bad e) :
    SequenceRefused levels inBraces offset (first ++ viable) bad e := by
  by_cases hstops : node.Stops inBraces (viable ++ bad)
  · exact .behind hfirst hstops h
  · rcases Node.not_stops hstops with ⟨rfl, -⟩ | ⟨runes, rfl, r, hr, hends⟩
    · rcases hfirst
      exact h.star
    · obtain ⟨hfirst, -⟩ := itemText_literal_iff.mp hfirst
      exact h.literal hfirst hr hends

/-- **A text before a refused text.** The text is refused in the same way. -/
theorem SequenceText.append_refused (hfirst : SequenceText levels inBraces first nodes)
    (h : SequenceRefused levels inBraces (offset + first.length) viable bad e) :
    SequenceRefused levels inBraces offset (first ++ viable) bad e := by
  induction nodes generalizing first offset with
  | nil =>
    obtain rfl := hfirst.text_eq_nil
    exact h
  | cons node rest ih =>
    obtain ⟨first, middle, rfl, hitem, hmiddle, -⟩ := sequenceText_cons_iff.mp hfirst
    rw [List.length_append, ← Nat.add_assoc] at h
    rw [List.append_assoc]
    exact .cons hitem (ih hmiddle h)

/-! ## Offsets

Why a text is refused does not depend on how many runes come before it. -/

variable {k : Nat}

theorem MemberRefused.shift (h : MemberRefused offset viable bad e) :
    MemberRefused (k + offset) viable bad (e.shift k) := by
  rcases h with _ | ⟨hfirst⟩ | ⟨hfirst, hlast, hlt⟩
  · exact .dangling
  · simp only [CompileError.shift, ← Nat.add_assoc]
    exact .danglingBound hfirst
  · simp only [CompileError.shift, ← Nat.add_assoc]
    exact .backwards hfirst hlast hlt

theorem MembersRefused.shift (h : MembersRefused offset viable bad e) :
    MembersRefused (k + offset) viable bad (e.shift k) := by
  induction h with
  | here hmember => exact .here hmember.shift
  | behindRune hfirst _ hdash ih =>
    rw [← Nat.add_assoc] at ih
    exact .behindRune hfirst ih hdash
  | behindRange hfirst hlast hle _ ih =>
    simp only [← Nat.add_assoc] at ih
    exact .behindRange hfirst hlast hle ih

theorem ClassRefused.shift (h : ClassRefused offset viable bad e) :
    ClassRefused (k + offset) viable bad (e.shift k) := by
  rcases h with ⟨htext⟩ | _ | ⟨hmembers⟩
  · simp only [CompileError.shift, ← Nat.add_assoc]
    exact .unclosed htext
  · exact .empty
  · exact .member hmembers.shift

mutual

theorem ItemRefused.shift {levels offset : Nat} {inBraces : Bool} {viable bad : List Char}
    {e : CompileError} : ItemRefused levels inBraces offset viable bad e →
      ItemRefused levels inBraces (k + offset) viable bad (e.shift k)
  | .tooDeep => .tooDeep
  | .empty => .empty
  | .braces halts => .braces halts.shift
  | .positive hclass hmark => .positive hclass.shift hmark
  | .negated hclass => .negated hclass.shift
  | .literal htext => by
    rw [CompileError.shift, ← Nat.add_assoc]
    exact .literal htext

theorem SequenceRefused.shift {levels offset : Nat} {inBraces : Bool} {viable bad : List Char}
    {e : CompileError} : SequenceRefused levels inBraces offset viable bad e →
      SequenceRefused levels inBraces (k + offset) viable bad (e.shift k)
  | .here hitem => .here hitem.shift
  | .behind hfirst hstops hrest => by
    refine .behind hfirst hstops ?_
    rw [Nat.add_assoc]
    exact hrest.shift

theorem AlternativesRefused.shift {levels offset : Nat} {viable bad : List Char}
    {e : CompileError} : AlternativesRefused levels offset viable bad e →
      AlternativesRefused levels (k + offset) viable bad (e.shift k)
  | .unclosed htext => by
    rw [CompileError.shift, ← Nat.add_assoc]
    exact .unclosed htext
  | .here hsequence => .here hsequence.shift
  | .behind hfirst hrest => by
    refine .behind hfirst ?_
    rw [Nat.add_assoc, Nat.add_assoc, ← Nat.add_assoc offset]
    exact hrest.shift

end

end Grammar

namespace Pattern

open Grammar

theorem ofRunes_append_of_error {runes runes' : List Char} {p : Pattern} {e : CompileError}
    (hp : ofRunes runes = .ok p) (h : ofRunes runes' = .error e) :
    ofRunes (runes ++ runes') = .error (e.shift runes.length) := by
  obtain ⟨viable, bad, rfl, hrefused⟩ := ofRunes_eq_error.mp h
  have hlater := SequenceRefused.shift (k := runes.length) hrefused
  rw [Nat.add_comm] at hlater
  rw [ofRunes_eq_error]
  refine ⟨runes ++ viable, bad, (List.append_assoc _ _ _).symm, ?_⟩
  exact (patternText_of_ofRunes hp).append_refused hlater

theorem exists_offset?_of_ofRunes {runes : List Char} {e : CompileError}
    (h : ofRunes runes = .error e) : ∃ offset, e.offset? = some offset := by
  obtain ⟨viable, bad, -, hrefused⟩ := ofRunes_eq_error.mp h
  rcases e with _ | _ | _ | _
  case outOfMemory =>
    rcases hrefused.fits with ⟨hincomplete, -⟩ | ⟨-, -, hoffset⟩
    · exact hincomplete.elim
    · exact ⟨_, hoffset⟩
  all_goals exact ⟨_, rfl⟩

/-- **Texts in a row.** Behind a text that compiles, a text that is refused is refused with the same
error at an offset that is greater by the number of runes before it, and a text that compiles
compiles. The nodes come in a row too, with two literals that meet joined into one, unless the first
text ends in a star that stands alone and the second one starts with a star. -/
theorem compile_append {first second : String} {p : Pattern} (h : compile first = .ok p) :
    (∀ e, compile second = .error e → ∃ offset, e.offset? = some offset ∧
      compile (first ++ second) = .error (e.shift first.length) ∧
        (e.shift first.length).offset? = some (first.length + offset)) ∧
    ∀ q, compile second = .ok q → ∃ both, compile (first ++ second) = .ok both ∧
      (¬(p.nodes.getLast? = some .anyText ∧ second.toList.head? = some '*') →
        both.nodes = Node.join p.nodes q.nodes) := by
  simp only [compile, String.toList_append]
  constructor
  · intro e he
    obtain ⟨offset, hoffset⟩ := exists_offset?_of_ofRunes he
    refine ⟨offset, hoffset, ofRunes_append_of_error h he, ?_⟩
    rw [CompileError.offset?_shift, hoffset, Option.map_some]
  · intro q hq
    obtain ⟨nodes, hnodes, hjoin⟩ :=
      (patternText_of_ofRunes h).exists_append (patternText_of_ofRunes hq)
    exact ⟨⟨nodes⟩, ofRunes_of_patternText hnodes, hjoin⟩

/-- A closing brace is a rune of a literal at top level, so nothing is open behind it. -/
theorem compile_append_literal :
    let p : Pattern := ⟨[.anyText, .literal ['a', '\x7d']]⟩
    let q : Pattern := ⟨[.literal ['*'], .oneOf [[], [.globstar]]]⟩
    let backwards : CompileError := .expected .upperBound (some 'b') 4
    (compile "*a\x7d" = .ok p ∧ compile "\\*\x7b,**\x7d" = .ok q ∧
        ∃ both, compile ("*a\x7d" ++ "\\*\x7b,**\x7d") = .ok both ∧
          both.nodes = [.anyText, .literal ['a', '\x7d', '*'], .oneOf [[], [.globstar]]]) ∧
      compile "\x7b[z-b" = .error backwards ∧
        compile ("*a\x7d" ++ "\x7b[z-b") = .error (.expected .upperBound (some 'b') 7) := by
  intro p q backwards
  have hp : compile "*a\x7d" = .ok p := by cbv
  have hq : compile "\\*\x7b,**\x7d" = .ok q := by cbv
  have hbackwards : compile "\x7b[z-b" = .error backwards := by cbv
  obtain ⟨both, hboth, hjoin⟩ := (compile_append hp).2 q hq
  obtain ⟨-, -, herror, -⟩ := (compile_append hp).1 backwards hbackwards
  exact ⟨⟨hp, hq, both, hboth, hjoin (by decide)⟩, hbackwards, herror⟩

end Pattern

end PathGlob
