import PathGlob.Pattern
import PathGlob.Rune

/-!
# Canonical pattern text

Every node sequence has one text, and for the sequences that reading produces this text reads back
as the same sequence. Two decisions carry that property.

* A literal escapes the slash along with the operators, because a bare slash would be read as the
  separator node.
* A group is written in brackets exactly when all of its alternatives are class members, that is
  one rune or one range each. Reading does not record which brackets a group came from, so the
  choice has to hang on the alternatives alone.

Inside brackets other runes are special than outside: the closing bracket, the backslash, the dash
and the exclamation mark. Sequences that no text produces get a text too, which reads back as
something else or not at all: an empty literal is written as nothing, a range at top level as a
class, and a plain group without alternatives as `[]`.
-/

namespace PathGlob

/-- A rune of a literal, behind a backslash if it would otherwise be read as something else. -/
def literalRuneText (r : Char) : List Char :=
  if isOperator r || r = '/' then ['\\', r] else [r]

/-- A rune of a class, behind a backslash if it is special inside brackets. -/
def classRuneText (r : Char) : List Char :=
  if r = ']' || r = '\\' || r = '-' || r = '!' then ['\\', r] else [r]

/-- A range of a class. -/
def classRangeText (lo hi : Char) : List Char :=
  classRuneText lo ++ '-' :: classRuneText hi

/-- Whether an alternative can be written as a member of a class: one rune, or one range. -/
def isClassMember : List Node → Bool
  | [.range _ _] => true
  | [.literal [_]] => true
  | _ => false

namespace Node

mutual

/-- The canonical text of a node. -/
def text : Node → List Char
  | .slash => ['/']
  | .globstar => ['*', '*']
  | .anyChar => ['?']
  | .anyText => ['*']
  | .literal runes => runes.flatMap literalRuneText
  | .range lo hi => '[' :: (classRangeText lo hi ++ [']'])
  | .oneOf alts =>
    if alts.all isClassMember then '[' :: (membersText alts ++ [']'])
    else '\x7b' :: (alternativesText alts ++ ['\x7d'])
  | .noneOf alts => '[' :: '!' :: (membersText alts ++ [']'])

/-- The canonical text of a sequence: that of its nodes, one behind the other. -/
def sequenceText : List Node → List Char
  | [] => []
  | node :: rest => text node ++ sequenceText rest

/-- The members of a class. An alternative that is no class member is written as it would be
outside of brackets. -/
def membersText : List (List Node) → List Char
  | [] => []
  | alt :: alts =>
    (match alt with
      | [.range lo hi] => classRangeText lo hi
      | [.literal runes] => runes.flatMap classRuneText
      | _ => sequenceText alt) ++ membersText alts

/-- The alternatives of a brace group, with commas between them. -/
def alternativesText : List (List Node) → List Char
  | [] => []
  | [alt] => sequenceText alt
  | alt :: alts => sequenceText alt ++ ',' :: alternativesText alts

end

instance : ToString Node := ⟨fun node ↦ String.ofList node.text⟩

@[simp] theorem sequenceText_nil : sequenceText [] = [] := by
  simp [sequenceText]

@[simp] theorem sequenceText_cons (node : Node) (rest : List Node) :
    sequenceText (node :: rest) = node.text ++ sequenceText rest := by
  simp [sequenceText]

@[simp] theorem sequenceText_append (left right : List Node) :
    sequenceText (left ++ right) = sequenceText left ++ sequenceText right := by
  induction left with
  | nil => simp
  | cons node left ih => simp [ih]

end Node

namespace Pattern

/-- The canonical text of a pattern. -/
def text (p : Pattern) : List Char := Node.sequenceText p.nodes

instance : ToString Pattern := ⟨fun p ↦ String.ofList p.text⟩

end Pattern

end PathGlob
