import PathGlob.Rune

/-!
# Escaping

Escaping a text puts a backslash before every operator, so that the text reads as a pattern for
itself. Slashes are left as they are: they read as separators, so the pattern of an escaped text
takes either separator where the text has a slash.
-/

namespace PathGlob

/-- A rune, behind a backslash if it is an operator. -/
def escapeRune (r : Char) : List Char :=
  if isOperator r then ['\\', r] else [r]

/-- A text with a backslash before every operator. -/
def escape (runes : List Char) : List Char := runes.flatMap escapeRune

@[simp] theorem escape_nil : escape [] = [] := rfl

@[simp] theorem escape_cons (r : Char) (runes : List Char) :
    escape (r :: runes) = escapeRune r ++ escape runes := by
  simp [escape]

@[simp] theorem escape_append (left right : List Char) :
    escape (left ++ right) = escape left ++ escape right := by
  simp [escape]

/-- A text with a backslash before every operator. -/
def escapeText (text : String) : String := String.ofList (escape text.toList)

end PathGlob
