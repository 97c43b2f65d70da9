import PathGlob.Rune.Quoted

/-!
# Errors of reading a pattern

A pattern text can be refused for three reasons: something else was needed at some rune, the text
ends behind a backslash that escapes nothing, or braces nest too deep. Each names the rune at which
it was noticed by its offset, counted in runes from the start of the text. The fourth reason is not
about the text: the memory for the pattern could not be had. Reading itself never gives it, and it
carries no offset.
-/

namespace PathGlob

/-- How many brace groups may be open at once. -/
def maxGroupDepth : Nat := 256

/-- What reading needed where it found something else. -/
inductive Expectation where
  /-- The end of a brace group. -/
  | closingBrace
  /-- The end of a class. -/
  | closingBracket
  /-- Something between the braces of a group. -/
  | groupAlternative
  /-- Something between the brackets of a class. -/
  | classMember
  /-- An upper bound that is no smaller than the lower bound of its range. -/
  | upperBound
  /-- Something that a caller with rules of its own names in its own words. -/
  | named (label : String)
  deriving DecidableEq

namespace Expectation

/-- The words of a message for what was needed. -/
def text : Expectation → String
  | .closingBrace => "\x7d"
  | .closingBracket => "]"
  | .groupAlternative => "group alternative"
  | .classMember => "class member"
  | .upperBound => "range upper bound not below lower bound"
  | .named label => label

end Expectation

/-- Why there is no pattern. -/
inductive CompileError where
  /-- Something was needed at the offset and not found; what was found is a rune, or nothing at the
  end of the text. -/
  | expected (what : Expectation) (found : Option Char) (offset : Nat)
  /-- The backslash at the offset is the last rune of the text. -/
  | unexpectedEnd (offset : Nat)
  /-- The brace at the offset opens one group too many. -/
  | tooDeep (offset : Nat)
  /-- The memory for the pattern could not be had. -/
  | outOfMemory
  deriving DecidableEq

namespace CompileError

/-- The rune at which the text was refused, if the error is about the text. -/
def offset? : CompileError → Option Nat
  | .expected _ _ offset => some offset
  | .unexpectedEnd offset => some offset
  | .tooDeep offset => some offset
  | .outOfMemory => none

/-- What was found, in the words of a message. -/
def foundText : Option Char → String
  | some r => String.ofList (quoted '\'' [r])
  | none => "end of pattern"

/-- The message of an error. -/
def message : CompileError → String
  | .expected what found offset =>
    "expected " ++ what.text ++ " at offset " ++ toString offset ++ ", found " ++ foundText found
  | .unexpectedEnd offset => "unexpected end of pattern at offset " ++ toString offset
  | .tooDeep offset =>
    "brace nesting exceeds " ++ toString maxGroupDepth ++ " levels at offset " ++ toString offset
  | .outOfMemory => "memory allocation failed"

instance : ToString CompileError := ⟨message⟩

end CompileError

end PathGlob
