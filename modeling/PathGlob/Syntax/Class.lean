import PathGlob.Pattern
import PathGlob.Syntax.Cursor

/-!
# Reading classes

A class stands between brackets and has one or more members: single runes, and ranges of two runes
with a dash between them. An exclamation mark directly behind the opening bracket negates the class
and is never a member. The class ends at the first closing bracket at which a member could start.

A dash makes a range only if another rune than the closing bracket follows it, so the dash in
`[a-]` and in `[-a]` is a member. The bounds of a range are compared once escapes are resolved, and
a range that runs backwards is refused at its upper bound.
-/

namespace PathGlob.Reading

/-- A rune of a class: the one at hand, or the one behind a backslash. -/
def classRune : (c : Cursor) → Except CompileError (Reading Char c.rest.length)
  | ⟨[], offset, _⟩ => .error (.expected .closingBracket none offset)
  | ⟨r :: rest, offset, depth⟩ => rune r rest offset depth

/-- A member of a class: a range if a dash and then a rune other than the closing bracket follow the
first rune, and a single rune otherwise. -/
def member (c : Cursor) : Except CompileError (Reading Node c.rest.length) :=
  match classRune c with
  | .error e => .error e
  | .ok ⟨lo, next, hlo⟩ =>
    match next, hlo with
    | ⟨'-' :: r :: rest, offset, depth⟩, hlo =>
      if r = ']' then .ok ⟨.literal [lo], ⟨'-' :: r :: rest, offset, depth⟩, hlo⟩
      else
        match classRune ⟨r :: rest, offset + 1, depth⟩ with
        | .error e => .error e
        | .ok ⟨hi, next, hhi⟩ =>
          if hi < lo then .error (.expected .upperBound (some hi) (offset + 1))
          else .ok ⟨.range lo hi, next, by simp only [List.length_cons] at hlo hhi; omega⟩
    | next, hlo => .ok ⟨.literal [lo], next, hlo⟩

/-- The members from a cursor up to the closing bracket, behind those read so far, which are kept in
reverse. -/
def members (start : Cursor) (soFar : List (List Node)) (c : Cursor)
    (hc : c.rest.length < start.rest.length) :
    Except CompileError (Reading (List (List Node)) start.rest.length) :=
  match c, hc with
  | ⟨[], offset, _⟩, _ => .error (.expected .closingBracket none offset)
  | ⟨r :: rest, offset, depth⟩, hc =>
    if r = ']' then
      if soFar.isEmpty then .error (.expected .classMember (some ']') offset)
      else
        .ok ⟨soFar.reverse, ⟨rest, offset + 1, depth⟩, by
          simp only [List.length_cons] at hc ⊢; omega⟩
    else
      match member ⟨r :: rest, offset, depth⟩ with
      | .error e => .error e
      | .ok ⟨node, next, hnext⟩ => members start ([node] :: soFar) next (by omega)
termination_by c.rest.length
decreasing_by exact hnext

/-- A class, from behind its opening bracket at `offset`. -/
def bracketClass (rest : List Char) (offset depth : Nat) :
    Except CompileError (Reading Node (rest.length + 1)) :=
  match rest with
  | '!' :: rest =>
    (members ⟨'[' :: '!' :: rest, offset, depth⟩ [] ⟨rest, offset + 2, depth⟩
      (by simp only [List.length_cons]; omega)).map (·.map .noneOf)
  | rest =>
    (members ⟨'[' :: rest, offset, depth⟩ [] ⟨rest, offset + 1, depth⟩ (Nat.lt_succ_self _)).map
      (·.map .oneOf)

end PathGlob.Reading
