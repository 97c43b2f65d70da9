import PathGlob.Pattern
import PathGlob.Syntax.Error

/-!
# The grammar of patterns

The grammar says which texts are patterns and which nodes a text stands for, and it says so without
a cursor: a text is cut into pieces, and each rule names the pieces of one construct. Three rules
look at what stands beside a piece. A single star is not followed by a star, so stars are paired
from the left; two literals do not meet, so a literal runs as far as it can; and a rune of a class
stands alone only if no dash with another rune behind it follows.

Inside braces the comma and the closing brace have to be escaped. The number of levels is how many
brace groups may still be opened.
-/

namespace PathGlob.Grammar

/-- A text of one or two runes that stands for one rune: a rune that is not special, or any rune
behind a backslash. -/
inductive Spelling (special : Char → Prop) : List Char → Char → Prop
  /-- A rune that is neither special nor the backslash. -/
  | bare {r : Char} (hspecial : ¬special r) (hbackslash : r ≠ '\\') : Spelling special [r] r
  /-- Any rune behind a backslash. -/
  | escaped (r : Char) : Spelling special ['\\', r] r

/-- The runes that end a literal: those that start another item, and inside braces those that end an
alternative. -/
def SpecialInLiteral (inBraces : Bool) (r : Char) : Prop :=
  r ∈ ['/', '*', '?', '\x7b', '['] ∨ inBraces = true ∧ r ∈ [',', '\x7d']

/-- A text that stands for the runes of a literal, one after the other. -/
inductive LiteralText (inBraces : Bool) : List Char → List Char → Prop
  /-- No runes. -/
  | nil : LiteralText inBraces [] []
  /-- A rune, and the rest of the runes. -/
  | cons {first text : List Char} {r : Char} {runes : List Char}
    (hfirst : Spelling (SpecialInLiteral inBraces) first r)
    (htext : LiteralText inBraces text runes) :
    LiteralText inBraces (first ++ text) (r :: runes)

/-- A text that stands for a rune of a class. -/
abbrev ClassRune : List Char → Char → Prop := Spelling (· = ']')

/-- A text that stands for the members of a class. -/
inductive MembersText : List Char → List (List Node) → Prop
  /-- No members. -/
  | nil : MembersText [] []
  /-- A single rune, unless a dash and another rune follow it. -/
  | rune {first text : List Char} {r : Char} {members : List (List Node)}
    (hfirst : ClassRune first r) (htext : MembersText text members)
    (hdash : ∀ next rest, text ≠ '-' :: next :: rest) :
    MembersText (first ++ text) ([.literal [r]] :: members)
  /-- A range of two runes, not running backwards. -/
  | range {first last text : List Char} {lo hi : Char} {members : List (List Node)}
    (hfirst : ClassRune first lo) (hlast : ClassRune last hi) (hle : lo ≤ hi)
    (htext : MembersText text members) :
    MembersText (first ++ '-' :: (last ++ text)) ([.range lo hi] :: members)

mutual

/-- A text that stands for one node. -/
inductive ItemText : (levels : Nat) → (inBraces : Bool) → List Char → Node → Prop
  /-- A slash. -/
  | slash {levels : Nat} {inBraces : Bool} : ItemText levels inBraces ['/'] .slash
  /-- Two stars. -/
  | globstar {levels : Nat} {inBraces : Bool} : ItemText levels inBraces ['*', '*'] .globstar
  /-- A question mark. -/
  | anyChar {levels : Nat} {inBraces : Bool} : ItemText levels inBraces ['?'] .anyChar
  /-- A star. -/
  | anyText {levels : Nat} {inBraces : Bool} : ItemText levels inBraces ['*'] .anyText
  /-- A literal of at least one rune. -/
  | literal {levels : Nat} {inBraces : Bool} {text runes : List Char}
    (htext : LiteralText inBraces text runes) (hne : runes ≠ []) :
    ItemText levels inBraces text (.literal runes)
  /-- A class of at least one member that does not start with an exclamation mark. -/
  | positive {levels : Nat} {inBraces : Bool} {text : List Char} {members : List (List Node)}
    (htext : MembersText text members) (hne : members ≠ []) (hmark : text.head? ≠ some '!') :
    ItemText levels inBraces ('[' :: (text ++ [']'])) (.oneOf members)
  /-- A negated class of at least one member. -/
  | negated {levels : Nat} {inBraces : Bool} {text : List Char} {members : List (List Node)}
    (htext : MembersText text members) (hne : members ≠ []) :
    ItemText levels inBraces ('[' :: '!' :: (text ++ [']'])) (.noneOf members)
  /-- Alternatives in braces, with something between the braces. -/
  | braces {levels : Nat} {inBraces : Bool} {text : List Char} {alts : List (List Node)}
    (htext : AlternativesText levels text alts) (hne : text ≠ []) :
    ItemText (levels + 1) inBraces ('\x7b' :: (text ++ ['\x7d'])) (.oneOf alts)

/-- A text that stands for a sequence of nodes. -/
inductive SequenceText : (levels : Nat) → (inBraces : Bool) → List Char → List Node → Prop
  /-- No nodes. -/
  | nil {levels : Nat} {inBraces : Bool} : SequenceText levels inBraces [] []
  /-- A node, and the rest of the nodes. -/
  | cons {levels : Nat} {inBraces : Bool} {first text : List Char} {node : Node}
    {nodes : List Node} (hfirst : ItemText levels inBraces first node)
    (htext : SequenceText levels inBraces text nodes)
    (hstar : node = .anyText → text.head? ≠ some '*')
    (hliteral : ∀ runes runes', node = .literal runes → nodes.head? ≠ some (.literal runes')) :
    SequenceText levels inBraces (first ++ text) (node :: nodes)

/-- A text that stands for the alternatives of a brace group, with commas between them. -/
inductive AlternativesText : (levels : Nat) → List Char → List (List Node) → Prop
  /-- One alternative. -/
  | one {levels : Nat} {text : List Char} {alt : List Node}
    (htext : SequenceText levels true text alt) : AlternativesText levels text [alt]
  /-- An alternative, and the rest of the alternatives behind a comma. -/
  | cons {levels : Nat} {first text : List Char} {alt : List Node} {alts : List (List Node)}
    (hfirst : SequenceText levels true first alt) (htext : AlternativesText levels text alts) :
    AlternativesText levels (first ++ ',' :: text) (alt :: alts)

end

/-- A text that stands for a pattern. -/
def PatternText (text : List Char) (nodes : List Node) : Prop :=
  SequenceText maxGroupDepth false text nodes

end PathGlob.Grammar
