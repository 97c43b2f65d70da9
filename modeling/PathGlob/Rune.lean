/-!
# Runes

A rune is one code point of a pattern or of a path. Two classes of runes matter to globs: the
operators, which mean something in pattern text and stand for themselves only behind a backslash,
and the separators, which divide a path into segments.

The backslash is in both classes. In pattern text it escapes the rune behind it; in a path it
separates segments just as the slash does. The slash is a separator but not an operator, because
pattern text has no other way to ask for a separator.
-/

namespace PathGlob

/-- The runes that need a backslash in pattern text to stand for themselves. -/
def isOperator (r : Char) : Bool :=
  r = '*' || r = '?' || r = '{' || r = '}' || r = '[' || r = ']' || r = ',' || r = '\\'

/-- The runes that divide a path into segments. -/
def isSeparator (r : Char) : Bool :=
  r = '/' || r = '\\'

theorem isSeparator_iff {r : Char} : isSeparator r = true ↔ r = '/' ∨ r = '\\' := by
  simp [isSeparator]

theorem isOperator_iff {r : Char} :
    isOperator r = true ↔ r ∈ ['*', '?', '{', '}', '[', ']', ',', '\\'] := by
  simp [isOperator, or_assoc]

end PathGlob
