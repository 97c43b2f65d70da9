import PathGlob.Syntax.Error

/-!
# What is open in a text

How many brace groups a text has opened and not closed, and whether it ends inside a class, shows
rune by rune, without cutting the text into items. A backslash takes its meaning from the rune
behind it. Inside a class only the closing bracket means anything, and outside a class a bracket
opens one. A closing brace closes the group that was opened last; where none is open it is a rune
like any other.

With this it can be said where an error has to point: which runes stand before and behind its
offset, and what is open there.
-/

namespace PathGlob

/-- What is open at a place of a text. -/
structure Nesting where
  /-- How many brace groups are open. -/
  groups : Nat
  /-- Whether a class is open. -/
  inClass : Bool
  /-- Whether the rune at hand stands behind a backslash that escapes it. -/
  escaped : Bool
  deriving DecidableEq

namespace Nesting

/-- What is open behind a rune. -/
def step (s : Nesting) (r : Char) : Nesting :=
  if s.escaped then { s with escaped := false }
  else if r = '\\' then { s with escaped := true }
  else if s.inClass then { s with inClass := r != ']' }
  else if r = '[' then { s with inClass := true }
  else if r = '\x7b' then { s with groups := s.groups + 1 }
  else if r = '\x7d' then { s with groups := s.groups - 1 }
  else s

/-- What is open behind a text. -/
def after (s : Nesting) (text : List Char) : Nesting := text.foldl step s

/-- Some groups are open and no class. -/
def outside (groups : Nat) : Nesting := ⟨groups, false, false⟩

/-- Some groups are open and a class inside them. -/
def inside (groups : Nat) : Nesting := ⟨groups, true, false⟩

@[simp] theorem after_nil (s : Nesting) : s.after [] = s := rfl

@[simp] theorem after_cons (s : Nesting) (r : Char) (text : List Char) :
    s.after (r :: text) = (s.step r).after text := rfl

@[simp] theorem after_append (s : Nesting) (first text : List Char) :
    s.after (first ++ text) = (s.after first).after text := List.foldl_append

@[simp] theorem step_outside_bracket (n : Nat) : (outside n).step '[' = inside n := rfl

@[simp] theorem step_inside_bracket (n : Nat) : (inside n).step ']' = outside n := rfl

@[simp] theorem step_outside_brace (n : Nat) : (outside n).step '\x7b' = outside (n + 1) := rfl

@[simp] theorem step_outside_closing (n : Nat) : (outside n).step '\x7d' = outside (n - 1) := rfl

@[simp] theorem step_step_outside (n : Nat) (r : Char) :
    ((outside n).step '\\').step r = outside n := rfl

@[simp] theorem step_step_inside (n : Nat) (r : Char) :
    ((inside n).step '\\').step r = inside n := rfl

/-- Outside a class, few runes change what is open. -/
theorem step_outside {r : Char} (hr : r ∉ ['\\', '[', '\x7b', '\x7d']) (n : Nat) :
    (outside n).step r = outside n := by
  simp only [List.mem_cons, List.not_mem_nil, or_false, not_or] at hr
  simp [step, outside, hr]

theorem step_inside {r : Char} (hbackslash : r ≠ '\\') (hbracket : r ≠ ']') (n : Nat) :
    (inside n).step r = inside n := by
  simp [step, inside, hbackslash, hbracket]

end Nesting

/-- What is open at the end of a text. -/
def nesting (text : List Char) : Nesting := (Nesting.outside 0).after text

/-- At an offset of a text, some runes end and others start. -/
def MeetAt (text : List Char) (offset : Nat) (before behind : List Char) : Prop :=
  before <:+ text.take offset ∧ behind <+: text.drop offset

/-- An error points at what is wrong with a text. -/
def CompileError.PointsAt (text : List Char) : CompileError → Prop
  | .unexpectedEnd offset => offset + 1 = text.length ∧ MeetAt text offset [] ['\\']
  | .expected what none offset =>
    offset = text.length ∧
      what = if (nesting text).inClass then .closingBracket else .closingBrace
  | .expected .groupAlternative (some found) offset =>
    found = '\x7d' ∧ MeetAt text offset ['\x7b'] ['\x7d']
  | .expected .classMember (some found) offset =>
    found = ']' ∧ (MeetAt text offset ['['] [']'] ∨ MeetAt text offset ['[', '!'] [']'])
  | .expected .upperBound (some found) offset =>
    -- escaped or not, the lower bound is the rune before the dash
    ∃ lo, found < lo ∧ (nesting (text.take offset)).inClass = true ∧
      (found ≠ '\\' ∧ MeetAt text offset [lo, '-'] [found] ∨
        MeetAt text offset [lo, '-'] ['\\', found])
  | .tooDeep offset =>
    MeetAt text offset [] ['\x7b'] ∧ nesting (text.take offset) = .outside maxGroupDepth
  | .expected _ (some _) _ | .outOfMemory => False

end PathGlob
