import PathGlob.Syntax.Class

/-!
# Reading sequences

A pattern text is a sequence of items: the slash, the wildcards `**`, `*` and `?`, brace groups,
classes, and literals for all else. Stars are paired from left to right. A literal runs as far as it
can: its first rune is never asked whether it ends the run, since no other item starts there, and
every later rune ends the run if an item starts with it or if it ends the sequence.

Only inside braces do the comma and the closing brace end a sequence. At top level they are runes
of a literal, as a closing bracket is everywhere. A group needs something between its braces, but
its alternatives may be empty, so `{}` is refused and `{,}` is not.

`Pattern.compile` reads a whole text. It stops at the first error, with two exceptions that follow
from the order of reading: a missing closing brace or bracket is noticed only at the end of the
text, and the brace that opens one group too many is refused before anything behind it is read.
-/

namespace PathGlob

/-- Whether a rune ends an alternative inside braces. -/
def endsAlternative (r : Char) : Bool := r = ',' || r = '\x7d'

/-- Whether an item other than a literal starts with a rune. -/
def startsItem (r : Char) : Bool :=
  r = '/' || r = '*' || r = '?' || r = '\x7b' || r = '['

/-- Whether a rune behind the first one ends a literal. -/
def endsLiteral (inBraces : Bool) (r : Char) : Bool :=
  startsItem r || inBraces && endsAlternative r

namespace Reading

/-- The rest of a literal from a cursor on, behind the runes read so far, which are kept in
reverse. -/
def literalTail (inBraces : Bool) (start : Cursor) (soFar : List Char) (c : Cursor)
    (hc : c.rest.length < start.rest.length) :
    Except CompileError (Reading Node start.rest.length) :=
  match c, hc with
  | ⟨[], offset, depth⟩, hc => .ok ⟨.literal soFar.reverse, ⟨[], offset, depth⟩, hc⟩
  | ⟨r :: rest, offset, depth⟩, hc =>
    if endsLiteral inBraces r then
      .ok ⟨.literal soFar.reverse, ⟨r :: rest, offset, depth⟩, hc⟩
    else
      match rune r rest offset depth with
      | .error e => .error e
      | .ok ⟨r', next, hnext⟩ =>
        literalTail inBraces start (r' :: soFar) next (by simp only [List.length_cons] at hc; omega)
termination_by c.rest.length

/-- A literal whose first rune is at hand. -/
def literal (inBraces : Bool) (r : Char) (rest : List Char) (offset depth : Nat) :
    Except CompileError (Reading Node (rest.length + 1)) :=
  match rune r rest offset depth with
  | .error e => .error e
  | .ok ⟨r', next, hnext⟩ => literalTail inBraces ⟨r :: rest, offset, depth⟩ [r'] next hnext

mutual

/-- The item that starts with the rune at hand. -/
def item (inBraces : Bool) (r : Char) (rest : List Char) (offset depth : Nat) :
    Except CompileError (Reading Node (rest.length + 1)) :=
  match r with
  | '/' => .ok ⟨.slash, ⟨rest, offset + 1, depth⟩, Nat.lt_succ_self _⟩
  | '*' =>
    match rest with
    | '*' :: rest =>
      .ok ⟨.globstar, ⟨rest, offset + 2, depth⟩, by simp only [List.length_cons]; omega⟩
    | rest => .ok ⟨.anyText, ⟨rest, offset + 1, depth⟩, Nat.lt_succ_self _⟩
  | '?' => .ok ⟨.anyChar, ⟨rest, offset + 1, depth⟩, Nat.lt_succ_self _⟩
  | '\x7b' =>
    if maxGroupDepth ≤ depth then .error (.tooDeep offset)
    else
      match alternatives ⟨'\x7b' :: rest, offset, depth⟩ [] ⟨rest, offset + 1, depth + 1⟩
          (Nat.lt_succ_self _) with
      | .error e => .error e
      | .ok ⟨alts, ⟨rest', offset', depth'⟩, hrest⟩ =>
        .ok ⟨.oneOf alts, ⟨rest', offset', depth' - 1⟩, hrest⟩
  | '[' => bracketClass rest offset depth
  | r => literal inBraces r rest offset depth
termination_by (rest.length + 1, 0)

/-- The items from a cursor up to the end of the sequence, behind those read so far, which are kept
in reverse. The rune that ends an alternative is left for the group to read. -/
def sequence (inBraces : Bool) (start : Cursor) (soFar : List Node) (c : Cursor)
    (hc : c.rest.length ≤ start.rest.length) :
    Except CompileError (Reading (List Node) (start.rest.length + 1)) :=
  match c, hc with
  | ⟨[], offset, depth⟩, hc => .ok ⟨soFar.reverse, ⟨[], offset, depth⟩, by omega⟩
  | ⟨r :: rest, offset, depth⟩, hc =>
    if inBraces && endsAlternative r then
      .ok ⟨soFar.reverse, ⟨r :: rest, offset, depth⟩, by omega⟩
    else
      match item inBraces r rest offset depth with
      | .error e => .error e
      | .ok ⟨node, next, hnext⟩ =>
        sequence inBraces start (node :: soFar) next (by simp only [List.length_cons] at hc; omega)
termination_by (c.rest.length, 1)

/-- The alternatives from a cursor up to the closing brace, behind those read so far, which are kept
in reverse; `start` is the place of the opening brace. -/
def alternatives (start : Cursor) (soFar : List (List Node)) (c : Cursor)
    (hc : c.rest.length < start.rest.length) :
    Except CompileError (Reading (List (List Node)) start.rest.length) :=
  match sequence true c [] c (Nat.le_refl _) with
  | .error e => .error e
  | .ok ⟨_, ⟨[], offset, _⟩, _⟩ => .error (.expected .closingBrace none offset)
  | .ok ⟨alt, ⟨r :: rest, offset, depth⟩, hrest⟩ =>
    if r = ',' then
      alternatives start (alt :: soFar) ⟨rest, offset + 1, depth⟩
        (by simp only [List.length_cons] at hrest ⊢; omega)
    else if soFar.isEmpty && alt.isEmpty then
      .error (.expected .groupAlternative (some '\x7d') (start.offset + 1))
    else
      .ok ⟨(alt :: soFar).reverse, ⟨rest, offset + 1, depth⟩, by
        simp only [List.length_cons] at hrest ⊢; omega⟩
termination_by (c.rest.length, 2)
decreasing_by
  · exact Prod.Lex.right _ (by decide)
  · exact Prod.Lex.left _ _ (by simp only [List.length_cons] at hrest; omega)

end

end Reading

namespace Pattern

/-- The pattern of a text, given by its runes. -/
def ofRunes (runes : List Char) : Except CompileError Pattern :=
  (Reading.sequence false (.ofText runes) [] (.ofText runes) (Nat.le_refl _)).map
    fun reading ↦ ⟨reading.value⟩

/-- The pattern of a text. -/
def compile (text : String) : Except CompileError Pattern := ofRunes text.toList

end Pattern

end PathGlob
