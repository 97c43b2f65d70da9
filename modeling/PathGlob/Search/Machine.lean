import PathGlob.Search.Run

/-!
# Searching in single steps

A move of a search may do many things at once. At a dead end it drops every exhausted choice from
the top of the stack before it takes one up, and at a negated group it asks for the answers of other
searches, which may have to ask again. A machine does these things one by one: a step walks one
node, drops one choice, takes one up, starts one search for a negated group, or hands the answer of
such a search back to the one that waits for it.

So nothing that a step does can go on without end, and a search halts if its machine makes finitely
many steps. The searches that wait are a stack of their own, since a search that looks ahead for a
negated group may come to a negated group itself.
-/

namespace PathGlob.Search

namespace State

/-- Whether only a choice of the stack could keep a search going: if none were left, the search
would be over without a match. -/
def isDeadEnd (s : State) (w : Setting) : Bool :=
  match State.next { s with stack := [] } w with
  | .done accepted => !accepted
  | .running _ | .dangling => false

/-- The alternative that a negated group has to be asked about next, and the state to go on from if
it does not match: there the group is left with its other alternatives. -/
def question? (s : State) : Option (List Node × State) :=
  match s.nodes with
  | .noneOf (alt :: alts) :: rest => some (alt, { s with nodes := .noneOf alts :: rest })
  | _ => none

end State

/-- What a search is about to do. -/
inductive Task where
  /-- To walk on from a state. -/
  | walk (state : State)
  /-- To take up the topmost choice of the stack that is still open. -/
  | backtrack (arena : Array Continuation) (stack : List Frame)

/-- A search that has asked about an alternative of a negated group. -/
structure Waiting where
  /-- The flags that it goes by. -/
  flags : Flags
  /-- The state from which it walks on if the alternative does not match. If it does, this is a dead
  end. -/
  state : State

/-- A search that is at work, and the searches that wait for its answer. -/
structure Machine where
  /-- The flags that the search at work goes by. -/
  flags : Flags
  /-- What it is about to do. -/
  task : Task
  /-- The searches that wait, the one that asked last first. -/
  waiting : List Waiting

/-- What a step of a machine leads to. -/
inductive Progress where
  /-- The machine goes on. -/
  | running (machine : Machine)
  /-- The machine halts with the answer of the first search. -/
  | done (accepted : Bool)
  /-- The continuation is not in the arena. No machine that starts properly gets here. -/
  | dangling

/-- What becomes of the answer of a search: the search that asked goes on with it, and without one
the machine halts. -/
def answer (accepted : Bool) : List Waiting → Progress
  | [] => .done accepted
  | ⟨flags, s⟩ :: waiting =>
    .running ⟨flags, if accepted then .backtrack s.arena s.stack else .walk s, waiting⟩

/-- What a move of the search at work leads the machine to. -/
def Outcome.progress (flags : Flags) (waiting : List Waiting) : Outcome → Progress
  | .running s => .running ⟨flags, .walk s, waiting⟩
  | .done accepted => answer accepted waiting
  | .dangling => .dangling

namespace Machine

/-- The machine of a search from a position, before its first step. -/
def start (flags : Flags) (nodes : List Node) (pos : Nat) : Machine :=
  ⟨flags, .walk (.initial nodes pos), []⟩

/-- One step of the search at work from a state that leaves it nothing to ask, so it does not matter
what the answer would be. -/
def walk (path : Path) (flags : Flags) (s : State) (waiting : List Waiting) : Progress :=
  let w : Setting := ⟨path, flags, fun _ _ ↦ false⟩
  if s.isDeadEnd w then .running ⟨flags, .backtrack s.arena s.stack, waiting⟩
  else (s.next w).progress flags waiting

/-- One step. -/
def step (path : Path) (m : Machine) : Progress :=
  match m.task with
  | .walk s =>
    match s.question? with
    | some (alt, s') =>
      .running ⟨m.flags.erase .fullMatch, .walk (.initial alt s.pos), ⟨m.flags, s'⟩ :: m.waiting⟩
    | none => walk path m.flags s m.waiting
  | .backtrack _ [] => answer false m.waiting
  | .backtrack arena (frame :: stack) =>
    match frame.choice.resume path with
    | none => .running { m with task := .backtrack arena stack }
    | some (nodes, pos, choice) =>
      .running { m with task := .walk ⟨nodes, pos, frame.continuation,
        ⟨choice, frame.continuation, frame.arenaSize⟩ :: stack, arena.shrink frame.arenaSize⟩ }

end Machine

end PathGlob.Search
