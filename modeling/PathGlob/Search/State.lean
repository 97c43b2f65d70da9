import PathGlob.Flags
import PathGlob.Path
import PathGlob.Pattern

/-!
# The state of a search

A search walks a node sequence over a path from left to right. Where a node leaves a choice, the
ways not taken are put on a stack, and a dead end takes up the topmost way that is still open. So
neither the length of a pattern nor that of a path becomes depth of recursion.

Inside a brace group the search walks one alternative. What comes behind the group is kept as a
continuation, and continuations form chains, since groups nest. They live in an arena and are named
by their index there; a frame of the stack remembers how large the arena was when the frame was
pushed, and taking the frame up shrinks the arena to that size.

Unless the whole path has to be matched, a group commits: the first alternative that reaches its end
is the one that counts, and so is the place where it ends. For that a continuation remembers how
high the stack was when the group was entered, and leaving the group cuts the stack back to that
height.

`State.next` makes one move of this search. Negated groups ask whether an alternative matches at a
position; the answer comes from a search of its own, which a move takes as a parameter.
-/

namespace PathGlob.Search

/-- What comes behind a group that the search is inside of. -/
structure Continuation where
  /-- The nodes behind the group. -/
  rest : List Node
  /-- Where the continuation of the enclosing group is, if there is one. -/
  parent : Option Nat
  /-- The height to which leaving the group cuts the stack, if it does. -/
  cut : Option Nat

/-- The ways that are left open at one place. -/
inductive Choice where
  /-- `rest` may go on one rune further than `last`, if the rune at `last` is no separator. -/
  | span (rest : List Node) (last : Nat)
  /-- `rest` may go on at every separator at or behind `start`. -/
  | separators (rest : List Node) (start : Nat)
  /-- Each of the alternatives may be walked from `pos`. -/
  | alternatives (alternatives : List (List Node)) (pos : Nat)

/-- A choice on the stack. -/
structure Frame where
  /-- The ways that are left open. -/
  choice : Choice
  /-- The continuation behind each of them. -/
  continuation : Option Nat
  /-- The size of the arena when the frame was pushed. -/
  arenaSize : Nat

/-- Where a search stands. -/
structure State where
  /-- The nodes still to be walked up to the end of the sequence. -/
  nodes : List Node
  /-- The position in the path. -/
  pos : Nat
  /-- The continuation behind the end of the sequence. -/
  continuation : Option Nat
  /-- The choices that are open, the latest first. -/
  stack : List Frame
  /-- The continuations. -/
  arena : Array Continuation

/-- What a move leads to. -/
inductive Outcome where
  /-- The search goes on. -/
  | running (state : State)
  /-- The search is over. -/
  | done (accepted : Bool)
  /-- The continuation is not in the arena. No search that starts properly gets here. -/
  | dangling

/-- What stays the same throughout a search. -/
structure Setting where
  /-- The path. -/
  path : Path
  /-- The flags. -/
  flags : Flags
  /-- Whether a sequence on its own matches some beginning of what stands at a position. -/
  lookahead : List Node → Nat → Bool

/-- The state before the first move of a walk from a position. -/
def State.initial (nodes : List Node) (pos : Nat) : State := ⟨nodes, pos, none, [], #[]⟩

/-! ## Dead ends -/

/-- Takes up a choice: the nodes to walk, the position to walk them from, and the choice that is
left. -/
def Choice.resume (path : Path) : Choice → Option (List Node × Nat × Choice)
  | .span rest last =>
    if path.hasText last then some (rest, last + 1, .span rest (last + 1)) else none
  | .separators rest start =>
    (path.nextSeparator start).map fun i ↦ (rest, i, .separators rest (i + 1))
  | .alternatives [] _ => none
  | .alternatives (alt :: alts) pos => some (alt, pos, .alternatives alts pos)

/-- Takes up the topmost choice that is still open. Exhausted choices above it are dropped, and so
are the continuations that were made after it. -/
def backtrack (path : Path) (arena : Array Continuation) : List Frame → Outcome
  | [] => .done false
  | frame :: stack =>
    match frame.choice.resume path with
    | none => backtrack path arena stack
    | some (nodes, pos, choice) =>
      .running ⟨nodes, pos, frame.continuation,
        ⟨choice, frame.continuation, frame.arenaSize⟩ :: stack, arena.shrink frame.arenaSize⟩

/-- The stack cut back to a height. -/
def cutBack (stack : List Frame) : Option Nat → List Frame
  | none => stack
  | some height => stack.drop (stack.length - height)

/-! ## Moves -/

namespace State

/-- The search goes on with other nodes from another position. -/
def goOn (s : State) (nodes : List Node) (pos : Nat) : Outcome :=
  .running ⟨nodes, pos, s.continuation, s.stack, s.arena⟩

/-- The search goes on, and a choice is left open. -/
def goOnWith (s : State) (choice : Choice) (nodes : List Node) (pos : Nat) : Outcome :=
  .running ⟨nodes, pos, s.continuation, ⟨choice, s.continuation, s.arena.size⟩ :: s.stack, s.arena⟩

/-- The search is at a dead end. -/
def fail (s : State) (w : Setting) : Outcome := backtrack w.path s.arena s.stack

/-- The end of a sequence. Behind an alternative the walk goes on behind its group; at top level the
search is over, unless the whole path has to be matched and some of it is left. -/
def leave (s : State) (w : Setting) : Outcome :=
  match s.continuation with
  | none =>
    if w.flags.has .fullMatch && s.pos != w.path.size then s.fail w else .done true
  | some i =>
    match s.arena[i]? with
    | none => .dangling
    | some k => .running ⟨k.rest, s.pos, k.parent, cutBack s.stack k.cut, s.arena⟩

/-- A plain group: its first alternative is walked, and the others are left open. -/
def enter (s : State) (w : Setting) (rest : List Node) : List (List Node) → Outcome
  | [] => s.fail w
  | alt :: alts =>
    let cut := if w.flags.has .fullMatch then none else some s.stack.length
    let inside := s.arena.size
    let stack :=
      if alts.isEmpty then s.stack
      else ⟨.alternatives alts s.pos, some inside, inside + 1⟩ :: s.stack
    .running ⟨alt, s.pos, some inside, stack, s.arena.push ⟨rest, s.continuation, cut⟩⟩

/-- A negated group: a dead end if an alternative matches here, and else one rune, whatever it is.
With `legacyNegation` no rune is taken, and the sequence ends on the spot. -/
def exclude (s : State) (w : Setting) (rest : List Node) (alts : List (List Node)) : Outcome :=
  if alts.any fun alt ↦ w.lookahead alt s.pos then s.fail w
  else if w.flags.has .legacyNegation then
    match s.continuation with
    | none => .done true
    | some _ => s.goOn [] s.pos
  else if s.pos < w.path.size then s.goOn rest (s.pos + 1)
  else s.fail w

/-- A double star. By default the walk tries the place at hand and then every later separator. With
`legacyGlobstar` it tries every separator from the place at hand on, and the place at hand only if
there is none. -/
def spread (s : State) (w : Setting) (rest : List Node) : Outcome :=
  if w.flags.has .legacyGlobstar then
    match w.path.nextSeparator s.pos with
    | none => s.goOn rest s.pos
    | some i => s.goOnWith (.separators rest (i + 1)) rest i
  else s.goOnWith (.separators rest (s.pos + 1)) rest s.pos

/-- Walks one node. -/
def visit (s : State) (w : Setting) (rest : List Node) : Node → Outcome
  | .slash => if w.path.hasSeparator s.pos then s.goOn rest (s.pos + 1) else s.fail w
  | .globstar => s.spread w rest
  | .anyChar => if w.path.hasText s.pos then s.goOn rest (s.pos + 1) else s.fail w
  | .anyText =>
    if w.path.hasText s.pos then s.goOnWith (.span rest s.pos) rest s.pos else s.goOn rest s.pos
  | .literal runes =>
    if w.path.spells s.pos runes then s.goOn rest (s.pos + runes.length) else s.fail w
  | .range lo hi =>
    if w.path.hasBetween s.pos lo hi then s.goOn rest (s.pos + 1) else s.fail w
  | .oneOf alts => s.enter w rest alts
  | .noneOf alts => s.exclude w rest alts

/-- One move: the next node is walked, or the end of the sequence is left. -/
def next (s : State) (w : Setting) : Outcome :=
  match s.nodes with
  | [] => s.leave w
  | node :: rest => s.visit w rest node

end State

end PathGlob.Search
