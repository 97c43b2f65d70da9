/-!
# Patterns

A pattern is a sequence of nodes, and a node says what may stand at one place of a path. Groups
nest: each of their alternatives is again a sequence. A node is any tree of these constructors; the
narrower shape of the nodes that pattern text can produce is a matter of reading, not of this type.

A class such as `[a-z_]` is the group of its members, so `[ab]` and `{a,b}` are one node, and only
`[!…]` gives the negated kind. That is why the two kinds of group are constructors of their own:
they are matched by different rules, and a pattern text can negate nothing but a class.
-/

namespace PathGlob

/-- What may stand at one place of a path. -/
inductive Node where
  /-- One separator. -/
  | slash
  /-- Any number of segments: written `**`. -/
  | globstar
  /-- One rune that is no separator: written `?`. -/
  | anyChar
  /-- Any run of runes within the current segment: written `*`. -/
  | anyText
  /-- Exactly these runes, one behind the other. -/
  | literal (runes : List Char)
  /-- One rune from `lo` to `hi`, both included. -/
  | range (lo hi : Char)
  /-- One of the alternatives, in order of preference. -/
  | oneOf (alternatives : List (List Node))
  /-- One rune at which none of the alternatives matches. -/
  | noneOf (alternatives : List (List Node))
  deriving Inhabited

namespace Node

/-- The literal node of a text; an empty text has none. -/
def ofText? (runes : List Char) : Option Node :=
  if runes.isEmpty then none else some (.literal runes)

/-! ## Equality -/

mutual

/-- Whether two nodes are the same tree. -/
def same : Node → Node → Bool
  | .slash, .slash => true
  | .globstar, .globstar => true
  | .anyChar, .anyChar => true
  | .anyText, .anyText => true
  | .literal runes, .literal runes' => runes == runes'
  | .range lo hi, .range lo' hi' => lo == lo' && hi == hi'
  | .oneOf alts, .oneOf alts' => sameAlternatives alts alts'
  | .noneOf alts, .noneOf alts' => sameAlternatives alts alts'
  | _, _ => false

/-- Whether two sequences are the same, node by node. -/
def sameSequence : List Node → List Node → Bool
  | [], [] => true
  | node :: rest, node' :: rest' => same node node' && sameSequence rest rest'
  | _, _ => false

/-- Whether two lists of alternatives are the same, one by one. -/
def sameAlternatives : List (List Node) → List (List Node) → Bool
  | [], [] => true
  | alt :: alts, alt' :: alts' => sameSequence alt alt' && sameAlternatives alts alts'
  | _, _ => false

end

mutual

theorem same_iff : ∀ {a b : Node}, same a b = true ↔ a = b
  | .slash, b => by cases b <;> simp [same]
  | .globstar, b => by cases b <;> simp [same]
  | .anyChar, b => by cases b <;> simp [same]
  | .anyText, b => by cases b <;> simp [same]
  | .literal _, b => by cases b <;> simp [same]
  | .range _ _, b => by cases b <;> simp [same]
  | .oneOf _, b => by cases b <;> simp [same, sameAlternatives_iff]
  | .noneOf _, b => by cases b <;> simp [same, sameAlternatives_iff]

theorem sameSequence_iff : ∀ {a b : List Node}, sameSequence a b = true ↔ a = b
  | [], b => by cases b <;> simp [sameSequence]
  | _ :: _, b => by cases b <;> simp [sameSequence, same_iff, sameSequence_iff]

theorem sameAlternatives_iff :
    ∀ {a b : List (List Node)}, sameAlternatives a b = true ↔ a = b
  | [], b => by cases b <;> simp [sameAlternatives]
  | _ :: _, b => by
    cases b <;> simp [sameAlternatives, sameSequence_iff, sameAlternatives_iff]

end

instance : DecidableEq Node := fun a b ↦
  decidable_of_iff (same a b = true) same_iff

end Node

/-- A glob pattern: the sequence of nodes that a path has to meet. The empty pattern asks for
nothing. -/
structure Pattern where
  /-- The nodes at top level. -/
  nodes : List Node := []
  deriving DecidableEq, Inhabited

namespace Pattern

/-- How many nodes stand at top level. -/
def length (p : Pattern) : Nat := p.nodes.length

/-- Whether the pattern asks for nothing. -/
def isEmpty (p : Pattern) : Bool := p.nodes.isEmpty

end Pattern

end PathGlob
