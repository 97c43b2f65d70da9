import PathGlob.Syntax.Sequence

/-!
# Reading in single steps

The functions that read a pattern call each other, and what they are inside of is nowhere to be
seen. A reader does their work one step at a time and keeps all of that in view: the cursor, the
loop that it is in, the nodes read so far, and the brace groups that are open, each with what the
call for it has to remember. Calling for a group puts it on the stack, and returning takes it off.

A step looks at the rune at hand or reads one rune. Where the functions read a rune without asking
for the end of the text first, the reader has a task of its own: a literal that has no rune yet, and
the two bounds of a member of a class. A literal is asked whether it ends only behind its first
rune.
-/

namespace PathGlob.Reading

/-- A class whose members are being read. -/
structure OpenClass where
  /-- Whether the class is negated. -/
  negated : Bool
  /-- The members read so far, in reverse. -/
  members : List (List Node)

/-- The node of a class that is closed. -/
def OpenClass.node (cls : OpenClass) : Node :=
  if cls.negated then .noneOf cls.members.reverse else .oneOf cls.members.reverse

/-- A class with one more member. -/
def OpenClass.push (cls : OpenClass) (member : Node) : OpenClass :=
  { cls with members := [member] :: cls.members }

/-- A brace group whose alternatives are being read. -/
structure OpenGroup where
  /-- The place of its opening brace. -/
  brace : Cursor
  /-- The alternatives read so far, in reverse. -/
  alternatives : List (List Node)
  /-- The nodes before the group in its own sequence, in reverse. -/
  before : List Node

/-- What a reader is about to do. -/
inductive Task where
  /-- To go round in the loop of a sequence. -/
  | sequence
  /-- To go round in the loop of a literal, behind the runes read so far, in reverse. -/
  | literal (runes : List Char)
  /-- To go round in the loop of a class. -/
  | members (cls : OpenClass)
  /-- To read the first rune of a member. -/
  | lowerBound (cls : OpenClass)
  /-- To read the rune behind the dash of a range. -/
  | upperBound (cls : OpenClass) (lo : Char)

/-- A reader between two steps. -/
structure Reader where
  /-- Where it stands. -/
  cursor : Cursor
  /-- What it is about to do. -/
  task : Task
  /-- The nodes of the sequence at hand, in reverse. -/
  nodes : List Node
  /-- The groups that are open, the innermost first. -/
  groups : List OpenGroup

/-- What a step of a reader leads to. -/
inductive Progress where
  /-- The reader goes on. -/
  | running (reader : Reader)
  /-- The reader is done, with a pattern or an error. -/
  | done (result : Except CompileError Pattern)

namespace Reader

/-- The reader of a text before its first step. -/
def start (text : List Char) : Reader := ⟨.ofText text, .sequence, [], []⟩

/-- A node was read, and the loop of the sequence goes on behind it. -/
def push (m : Reader) (node : Node) (next : Cursor) : Progress :=
  .running { m with cursor := next, task := .sequence, nodes := node :: m.nodes }

/-- The task goes on somewhere else. -/
def goOn (m : Reader) (task : Task) (next : Cursor) : Progress :=
  .running { m with cursor := next, task }

/-- A brace opens a group, unless too many are open. -/
def openGroup (m : Reader) (rest : List Char) (offset depth : Nat) : Progress :=
  if maxGroupDepth ≤ depth then .done (.error (.tooDeep offset))
  else .running ⟨⟨rest, offset + 1, depth + 1⟩, .sequence, [], ⟨m.cursor, [], m.nodes⟩ :: m.groups⟩

/-- A bracket opens a class, which an exclamation mark behind it negates. -/
def openClass (m : Reader) (rest : List Char) (offset depth : Nat) : Progress :=
  match rest with
  | '!' :: rest => m.goOn (.members ⟨true, []⟩) ⟨rest, offset + 2, depth⟩
  | rest => m.goOn (.members ⟨false, []⟩) ⟨rest, offset + 1, depth⟩

/-- The rune at hand starts an item. -/
def startItem (m : Reader) (r : Char) (rest : List Char) (offset depth : Nat) : Progress :=
  match r with
  | '/' => m.push .slash ⟨rest, offset + 1, depth⟩
  | '*' =>
    match rest with
    | '*' :: rest => m.push .globstar ⟨rest, offset + 2, depth⟩
    | rest => m.push .anyText ⟨rest, offset + 1, depth⟩
  | '?' => m.push .anyChar ⟨rest, offset + 1, depth⟩
  | '\x7b' => m.openGroup rest offset depth
  | '[' => m.openClass rest offset depth
  | _ => m.goOn (.literal []) m.cursor

/-- The rune at hand ends an alternative of the innermost group: a comma is followed by another one,
and a brace closes the group. -/
def endAlternative (m : Reader) (group : OpenGroup) (groups : List OpenGroup) (r : Char)
    (rest : List Char) (offset depth : Nat) : Progress :=
  let alternatives := m.nodes.reverse :: group.alternatives
  if r = ',' then
    .running ⟨⟨rest, offset + 1, depth⟩, .sequence, [], { group with alternatives } :: groups⟩
  else if group.alternatives.isEmpty && m.nodes.isEmpty then
    .done (.error (.expected .groupAlternative (some '\x7d') (group.brace.offset + 1)))
  else
    .running ⟨⟨rest, offset + 1, depth - 1⟩, .sequence,
      .oneOf alternatives.reverse :: group.before, groups⟩

/-- A round in the loop of a sequence. -/
def stepSequence (m : Reader) : Progress :=
  match m.cursor, m.groups with
  | ⟨[], _, _⟩, [] => .done (.ok ⟨m.nodes.reverse⟩)
  | ⟨[], offset, _⟩, _ :: _ => .done (.error (.expected .closingBrace none offset))
  | ⟨r :: rest, offset, depth⟩, [] => m.startItem r rest offset depth
  | ⟨r :: rest, offset, depth⟩, group :: groups =>
    if endsAlternative r then m.endAlternative group groups r rest offset depth
    else m.startItem r rest offset depth

/-- A round in the loop of a literal. -/
def stepLiteral (m : Reader) (runes : List Char) : Progress :=
  match m.cursor with
  | ⟨[], _, _⟩ => m.push (.literal runes.reverse) m.cursor
  | ⟨r :: rest, offset, depth⟩ =>
    if !runes.isEmpty && endsLiteral (!m.groups.isEmpty) r then
      m.push (.literal runes.reverse) m.cursor
    else
      match rune r rest offset depth with
      | .error e => .done (.error e)
      | .ok ⟨r', next, _⟩ => m.goOn (.literal (r' :: runes)) next

/-- A round in the loop of a class, up to the first rune of a member. -/
def stepMembers (m : Reader) (cls : OpenClass) : Progress :=
  match m.cursor with
  | ⟨[], offset, _⟩ => .done (.error (.expected .closingBracket none offset))
  | ⟨r :: rest, offset, depth⟩ =>
    if r = ']' then
      if cls.members.isEmpty then .done (.error (.expected .classMember (some ']') offset))
      else m.push cls.node ⟨rest, offset + 1, depth⟩
    else m.goOn (.lowerBound cls) m.cursor

/-- The first rune of a member, and the dash behind it if the member is a range. -/
def stepLowerBound (m : Reader) (cls : OpenClass) : Progress :=
  match classRune m.cursor with
  | .error e => .done (.error e)
  | .ok ⟨lo, next, _⟩ =>
    match next with
    | ⟨'-' :: r :: rest, offset, depth⟩ =>
      if r = ']' then
        m.goOn (.members (cls.push (.literal [lo]))) ⟨'-' :: r :: rest, offset, depth⟩
      else m.goOn (.upperBound cls lo) ⟨r :: rest, offset + 1, depth⟩
    | next => m.goOn (.members (cls.push (.literal [lo]))) next

/-- The rune behind the dash of a range. -/
def stepUpperBound (m : Reader) (cls : OpenClass) (lo : Char) : Progress :=
  match classRune m.cursor with
  | .error e => .done (.error e)
  | .ok ⟨hi, next, _⟩ =>
    if hi < lo then .done (.error (.expected .upperBound (some hi) m.cursor.offset))
    else m.goOn (.members (cls.push (.range lo hi))) next

/-- One step. -/
def step (m : Reader) : Progress :=
  match m.task with
  | .sequence => m.stepSequence
  | .literal runes => m.stepLiteral runes
  | .members cls => m.stepMembers cls
  | .lowerBound cls => m.stepLowerBound cls
  | .upperBound cls lo => m.stepUpperBound cls lo

end Reader

end PathGlob.Reading
