import PathGlob.Syntax.Grammar
import PathGlob.Syntax.Sequence

/-!
# First runes

Reading decides what to do by the rune at hand, and the grammar does not mention that rune. This
file says with which runes the texts of the grammar start: an item other than a literal starts with
a rune of its own, a literal starts with none of those, and no text of a sequence inside braces
starts with a rune that ends an alternative. A text of no runes stands for nothing, and nothing else
stands for nothing.

Reading also decides by a rune where to stop, and the grammar says instead which nodes and texts may
stand side by side. Within a sequence the two come to the same, which is `SequenceText.stops_iff`.
-/

namespace PathGlob

variable {inBraces : Bool} {r : Char}

/-! ## Kinds of runes -/

theorem endsAlternative_iff : endsAlternative r = true ↔ r = ',' ∨ r = '\x7d' := by
  simp [endsAlternative]

theorem startsItem_iff : startsItem r = true ↔ r ∈ ['/', '*', '?', '\x7b', '['] := by
  simp [startsItem, or_assoc]

theorem endsLiteral_of_startsItem (h : startsItem r = true) : endsLiteral inBraces r = true := by
  rw [endsLiteral, h, Bool.true_or]

theorem endsLiteral_of_endsAlternative (h : (inBraces && endsAlternative r) = true) :
    endsLiteral inBraces r = true := by
  rw [endsLiteral, h, Bool.or_true]

theorem endsLiteral_eq_false :
    endsLiteral inBraces r = false ↔
      startsItem r = false ∧ (inBraces && endsAlternative r) = false := by
  rw [endsLiteral, Bool.or_eq_false_iff]

theorem endsAlternative_of_startsItem (h : startsItem r = true) :
    (inBraces && endsAlternative r) = false := by
  have hends : ∀ r ∈ ['/', '*', '?', '\x7b', '['], endsAlternative r = false := by
    simp [endsAlternative]
  rw [hends r (startsItem_iff.mp h), Bool.and_false]

/-! ## Where reading stops -/

/-- Whether the item of a node is read up to here, by what is left of the text: a star takes a
second star along, and a literal whatever does not end it. -/
def Node.Stops (inBraces : Bool) : Node → List Char → Prop
  | .anyText, rest => rest.head? ≠ some '*'
  | .literal _, rest => ∀ r ∈ rest.head?, endsLiteral inBraces r = true
  | _, _ => True

/-- What an item does not stop at: a star does not stop at a star, and a literal not at a rune that
does not end it. -/
theorem Node.not_stops {node : Node} {text : List Char} (h : ¬node.Stops inBraces text) :
    node = .anyText ∧ text.head? = some '*' ∨
      ∃ runes, node = .literal runes ∧ ∃ r ∈ text.head?, endsLiteral inBraces r = false := by
  cases node with
  | anyText => exact .inl ⟨rfl, Classical.not_not.mp h⟩
  | literal runes =>
    simp only [Node.Stops, Classical.not_forall, Bool.not_eq_true] at h
    obtain ⟨r, hr, hends⟩ := h
    exact .inr ⟨runes, rfl, r, hr, hends⟩
  | slash | globstar | anyChar | range | oneOf | noneOf => exact absurd trivial h

/-- Whether a sequence is read up to here, by what is left of the text. -/
def EndsSequence (inBraces : Bool) (rest : List Char) : Prop :=
  ∀ r ∈ rest.head?, (inBraces && endsAlternative r) = true

theorem EndsSequence.head?_ne {rest : List Char} (h : EndsSequence inBraces rest)
    (hr : endsAlternative r = false) : rest.head? ≠ some r := by
  intro hhead
  have hends := h r hhead
  rw [hr, Bool.and_false] at hends
  exact Bool.false_ne_true hends

theorem endsSequence_nil : EndsSequence inBraces [] := by
  intro r hr
  cases hr

theorem endsSequence_cons {rest : List Char} (hr : (inBraces && endsAlternative r) = true) :
    EndsSequence inBraces (r :: rest) := by
  intro r' hr'
  cases hr'
  exact hr

theorem EndsSequence.stops {rest : List Char} (h : EndsSequence inBraces rest) (node : Node) :
    node.Stops inBraces rest := by
  cases node with
  | anyText => exact h.head?_ne rfl
  | literal => exact fun r hr ↦ endsLiteral_of_endsAlternative (h r hr)
  | slash | globstar | anyChar | range | oneOf | noneOf => trivial

theorem EndsSequence.eq_nil {rest : List Char} (h : EndsSequence false rest) : rest = [] := by
  rw [← List.head?_eq_none_iff, Option.eq_none_iff_forall_not_mem]
  intro r hr
  exact Bool.false_ne_true (h r hr)

namespace Grammar

variable {levels : Nat} {text : List Char} {node : Node} {nodes : List Node}

theorem specialInLiteral_iff : SpecialInLiteral inBraces r ↔ endsLiteral inBraces r = true := by
  simp [SpecialInLiteral, endsLiteral, startsItem, endsAlternative, or_assoc]

/-! ## Pieces of one or more runes -/

theorem Spelling.head {special : Char → Prop} (h : Spelling special text r) :
    ∃ first more, text = first :: more ∧ (special first → first = '\\') := by
  cases h with
  | bare hspecial hbackslash => exact ⟨r, [], rfl, fun h ↦ absurd h hspecial⟩
  | escaped => exact ⟨'\\', [r], rfl, fun _ ↦ rfl⟩

theorem head_of_literalRune (h : Spelling (SpecialInLiteral inBraces) text r) :
    ∃ first more, text = first :: more ∧ endsLiteral inBraces first = false := by
  have hbackslash : ∀ inBraces, endsLiteral inBraces '\\' = false := by decide
  obtain ⟨first, more, rfl, hhead⟩ := h.head
  refine ⟨first, more, rfl, ?_⟩
  rw [Bool.eq_false_iff]
  intro hends
  rw [hhead (specialInLiteral_iff.mpr hends), hbackslash] at hends
  exact Bool.false_ne_true hends

theorem LiteralText.head {runes : List Char} (h : LiteralText inBraces text runes)
    (hne : runes ≠ []) : ∃ r rest, text = r :: rest ∧ endsLiteral inBraces r = false := by
  cases h with
  | nil => exact absurd rfl hne
  | cons hfirst =>
    obtain ⟨first, more, rfl, hhead⟩ := head_of_literalRune hfirst
    exact ⟨first, _, rfl, hhead⟩

theorem head_of_classRune (h : ClassRune text r) :
    ∃ first more, text = first :: more ∧ first ≠ ']' := by
  obtain ⟨first, more, rfl, hhead⟩ := h.head
  refine ⟨first, more, rfl, ?_⟩
  intro heq
  exact absurd (hhead heq ▸ heq) (by decide)

theorem MembersText.head {members : List (List Node)} (h : MembersText text members) :
    ∀ r ∈ text.head?, r ≠ ']' := by
  cases h with
  | nil => simp
  | rune hfirst | range hfirst =>
    obtain ⟨first, more, rfl, hhead⟩ := head_of_classRune hfirst
    intro r hr
    cases hr
    exact hhead

theorem MembersText.head_behind_dash {members : List (List Node)}
    (h : MembersText ('-' :: r :: text) members) : r ≠ ']' := by
  generalize htext : '-' :: r :: text = whole at h
  cases h with
  | nil => cases htext
  | rune hfirst hmembers =>
    cases hfirst with
    | bare =>
      cases htext
      exact hmembers.head r rfl
    | escaped => cases htext
  | range hfirst =>
    cases hfirst with
    | bare =>
      cases htext
      decide
    | escaped => cases htext

/-- **How an item starts.** Its first rune tells whether it is a literal, and it ends no
alternative. -/
theorem ItemText.head (h : ItemText levels inBraces text node) :
    ∃ r rest, text = r :: rest ∧ (inBraces && endsAlternative r) = false ∧
      ((∃ runes, node = .literal runes) ∨ startsItem r = true) := by
  cases h with
  | literal htext hne =>
    obtain ⟨r, rest, rfl, hr⟩ := htext.head hne
    exact ⟨r, rest, rfl, (endsLiteral_eq_false.mp hr).2, .inl ⟨_, rfl⟩⟩
  | slash | globstar | anyChar | anyText | positive | negated | braces =>
    exact ⟨_, _, rfl, endsAlternative_of_startsItem (by decide), .inr (by decide)⟩

theorem ItemText.of_star (h : ItemText levels inBraces ('*' :: text) node) :
    node = .globstar ∨ node = .anyText := by
  cases h with
  | globstar => exact .inl rfl
  | anyText => exact .inr rfl
  | literal htext hne =>
    obtain ⟨r, rest, heq, hr⟩ := htext.head hne
    cases heq
    rw [endsLiteral_of_startsItem (by decide)] at hr
    cases hr

theorem SequenceText.nodes_eq_nil (h : SequenceText levels inBraces [] nodes) : nodes = [] := by
  generalize htext : [] = text at h
  cases h with
  | nil => rfl
  | cons hfirst =>
    obtain ⟨r, rest, rfl, -⟩ := hfirst.head
    cases htext

theorem SequenceText.text_eq_nil (h : SequenceText levels inBraces text []) : text = [] := by
  cases h
  rfl

/-- Only a single empty alternative is written as nothing. -/
theorem AlternativesText.alts_eq {alts : List (List Node)} (h : AlternativesText levels [] alts) :
    alts = [[]] := by
  generalize htext : [] = text at h
  cases h with
  | one hsequence =>
    subst htext
    rw [hsequence.nodes_eq_nil]
  | cons =>
    rw [List.nil_eq_append_iff] at htext
    exact absurd htext.2 (List.cons_ne_nil _ _)

theorem SequenceText.endsLiteral_head_iff (h : SequenceText levels inBraces text nodes) :
    (∀ r ∈ text.head?, endsLiteral inBraces r = true) ↔
      ∀ runes, nodes.head? ≠ some (.literal runes) := by
  cases h with
  | nil => simp
  | cons hfirst =>
    constructor
    · intro htext runes heq
      cases heq
      cases hfirst with
      | literal hliteral hne =>
        obtain ⟨r, rest, rfl, hr⟩ := hliteral.head hne
        rw [htext r rfl] at hr
        cases hr
    · intro hnodes r' hr'
      obtain ⟨r, rest, rfl, -, ⟨runes, rfl⟩ | hr⟩ := hfirst.head
      · exact absurd rfl (hnodes runes)
      · cases hr'
        exact endsLiteral_of_startsItem hr

/-- **Neighbours.** The item of a node stops before the rest of its sequence exactly if the grammar
allows the two side by side. -/
theorem SequenceText.stops_iff {more : List Char} (h : SequenceText levels inBraces text nodes)
    (hmore : EndsSequence inBraces more) :
    node.Stops inBraces (text ++ more) ↔
      (node = .anyText → text.head? ≠ some '*') ∧
        ∀ runes runes', node = .literal runes → nodes.head? ≠ some (.literal runes') := by
  rcases text with _ | ⟨r, rest⟩
  · rw [h.nodes_eq_nil]
    simp [hmore.stops node]
  · have hends := h.endsLiteral_head_iff
    cases node with
    | literal runes =>
      constructor
      · intro hstops
        exact ⟨nofun, fun _ runes' _ ↦ hends.mp hstops runes'⟩
      · rintro ⟨-, hnodes⟩
        exact hends.mpr fun runes' ↦ hnodes runes runes' rfl
    | slash | globstar | anyChar | anyText | range | oneOf | noneOf => simp [Node.Stops]

/-- A text of one or more nodes is that of the first node and, where its item stops, that of the
others. -/
theorem sequenceText_cons_iff :
    SequenceText levels inBraces text (node :: nodes) ↔
      ∃ first rest, text = first ++ rest ∧ ItemText levels inBraces first node ∧
        SequenceText levels inBraces rest nodes ∧ node.Stops inBraces rest := by
  have hstops : ∀ {rest}, SequenceText levels inBraces rest nodes →
      (node.Stops inBraces rest ↔ (node = .anyText → rest.head? ≠ some '*') ∧
        ∀ runes runes', node = .literal runes → nodes.head? ≠ some (.literal runes')) := by
    intro rest hrest
    simpa only [List.append_nil] using hrest.stops_iff endsSequence_nil
  constructor
  · intro h
    cases h with
    | cons hfirst hrest hstar hliteral =>
      exact ⟨_, _, rfl, hfirst, hrest, (hstops hrest).mpr ⟨hstar, hliteral⟩⟩
  · rintro ⟨first, rest, rfl, hfirst, hrest, hstop⟩
    obtain ⟨hstar, hliteral⟩ := (hstops hrest).mp hstop
    exact .cons hfirst hrest hstar hliteral

theorem SequenceText.cons_of_stops {first : List Char}
    (hfirst : ItemText levels inBraces first node) (h : SequenceText levels inBraces text nodes)
    (hstops : node.Stops inBraces text) :
    SequenceText levels inBraces (first ++ text) (node :: nodes) :=
  sequenceText_cons_iff.mpr ⟨first, text, rfl, hfirst, h, hstops⟩

end Grammar

end PathGlob
