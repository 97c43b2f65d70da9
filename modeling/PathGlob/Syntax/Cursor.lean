import PathGlob.Syntax.Error

/-!
# Cursors and readings

Reading walks a cursor over the runes of a pattern text. A reading is a value together with the
cursor behind it, and its type bounds what is left of the text. The bound is what makes the mutual
recursion of sequences, groups and their alternatives well-founded: an item is read with a strictly
shorter rest, so whoever goes on behind it goes on with less.

The cursor also counts the brace groups that are open. The count is part of the cursor, and not a
parameter of the functions that read, because a group that is closed has to give its level back to
the groups beside it.
-/

namespace PathGlob

/-- A place in a pattern text. -/
structure Cursor where
  /-- The runes from here on. -/
  rest : List Char
  /-- How many runes came before. -/
  offset : Nat
  /-- How many brace groups are open here. -/
  depth : Nat
  deriving DecidableEq

/-- The place before the first rune of a text. -/
def Cursor.ofText (runes : List Char) : Cursor := ⟨runes, 0, 0⟩

/-- A value that was read, and the place behind it, with fewer than `limit` runes left. -/
structure Reading (α : Type) (limit : Nat) where
  /-- What was read. -/
  value : α
  /-- The place behind it. -/
  next : Cursor
  /-- Fewer than `limit` runes are left there. -/
  shorter : next.rest.length < limit

namespace Reading

variable {α β : Type} {limit : Nat}

/-- The same place with another value. -/
def map (f : α → β) (reading : Reading α limit) : Reading β limit :=
  ⟨f reading.value, reading.next, reading.shorter⟩

/-- The rune at hand, or the rune behind it if it is a backslash. A backslash has to have a rune
behind it, and which rune that is does not matter. -/
def rune (r : Char) (rest : List Char) (offset depth : Nat) :
    Except CompileError (Reading Char (rest.length + 1)) :=
  if r = '\\' then
    match rest with
    | escaped :: rest =>
      .ok ⟨escaped, ⟨rest, offset + 2, depth⟩, by simp only [List.length_cons]; omega⟩
    | [] => .error (.unexpectedEnd offset)
  else .ok ⟨r, ⟨rest, offset + 1, depth⟩, Nat.lt_succ_self _⟩

end Reading

end PathGlob
