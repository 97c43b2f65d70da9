import PathGlob.Proofs.Search.Classes
import PathGlob.Proofs.Search.Exchange
import PathGlob.Proofs.Search.History
import PathGlob.Proofs.Syntax.Shape

/-!
# How far legacy negation reaches

Under `legacyNegation` a negated class that excludes the rune at hand is meant to end the match on
the spot, with success and without a look at what stands behind it. In the sequence of the whole
pattern it does, even if the whole path has to be matched and some of it is left. In an alternative
of a brace group it does not: the search ends the alternative only and goes on behind the group,
from the same position, and what comes there may still fail. So `{[!x]y,b}q` refuses `rz`, while
`[!x]yq`, which is one of its expansions, matches it. What stands behind the class in its own
sequence is never looked at in either case.

A run comes to the same answer from every state on its way, so it is enough to look at the moves
from the state that comes to the class. For what stands behind the class the moves are not the thing
to look at: wildcards before the class have put it on the stack long before. But a negated class has
no ends that its sequence goes on from, so any nodes behind it may be exchanged for any others.
-/

namespace PathGlob

/-- The setting in which a pattern is matched: its negated groups look ahead with as many levels as
they call for. -/
def Pattern.setting (p : Pattern) (path : Path) (flags : Flags) : Search.Setting :=
  ⟨path, flags, Search.search path (Node.sequenceNegationDepth p.nodes) (flags.erase .fullMatch)⟩

namespace Search

variable {w : Setting} {s : State} {alts : List (List Node)} {rest : List Node}

theorem Setting.Reaches.everywhere {P : Node → Prop} {nodes : List Node} {pos : Nat}
    (h : w.Reaches (.initial nodes pos) s) (hnodes : Node.Everywhere P nodes) : s.Everywhere P :=
  h.induction (everywhere_initial hnodes pos) fun _ _ ht hmove ↦ ht.move (move_of_next hmove)

/-! ## Classes that exclude the rune at hand -/

theorem any_lookahead_class (hforesees : w.Foresees (.noneOf alts))
    (hclass : Node.NegatesClass (.noneOf alts)) (pos : Nat) :
    (alts.any fun alt ↦ w.lookahead alt pos) = w.path.hasMember pos alts := by
  rw [hforesees alts rfl pos]
  exact alternativesEnds_bne_nil_class (hclass alts rfl)

/-- Where no member of a negated class covers the rune at hand, the match is over or the alternative
is. -/
theorem next_of_legacyNegation (hlegacy : w.flags.has .legacyNegation = true)
    (hnodes : s.nodes = .noneOf alts :: rest)
    (hnone : (alts.any fun alt ↦ w.lookahead alt s.pos) = false) :
    s.next w = match s.continuation with
      | none => .done true
      | some _ => .running { s with nodes := [] } := by
  rw [State.next, hnodes]
  change s.exclude w rest alts = _
  rw [State.exclude, hnone, if_neg Bool.false_ne_true, if_pos hlegacy]
  rfl

/-! ## What stands behind a class -/

variable {path : Path} {flags : Flags}

/-- What stands behind a negated class in its sequence is not walked: all ends of the class are
stops. -/
theorem sequenceEnds_noneOf_cons (hlegacy : flags.has .legacyNegation = true)
    (alts : List (List Node)) (rest : List Node) (pos : Nat) :
    sequenceEnds path flags (.noneOf alts :: rest) pos =
      nodeEnds path flags (.noneOf alts) pos := by
  rw [sequenceEnds_cons, nodeEnds, if_pos hlegacy]
  split
  · rw [List.flatMap_nil]
  · rw [List.flatMap_singleton, End.goOn]

/-- **Nothing behind a negated class matters under legacy negation.** In every place of a pattern,
the nodes behind a negated class may be exchanged for any others. In a place with nothing behind its
gap these are all the nodes behind the class in its own sequence. -/
theorem accepts_fill_behind_noneOf (hlegacy : flags.has .legacyNegation = true) (place : Place)
    (alts : List (List Node)) (rest rest' : List Node) (path : Path) :
    accepts path flags (place.fill (.noneOf alts :: rest)) =
      accepts path flags (place.fill (.noneOf alts :: rest')) := by
  have hwalks : WalksAlike path flags (.noneOf alts :: rest) (.noneOf alts :: rest') := by
    intro pos
    apply Alike.of_eq
    rw [sequenceEnds_noneOf_cons hlegacy, sequenceEnds_noneOf_cons hlegacy]
  exact (hwalks.fill place).accepts_eq

/-- In `*{/,**[!x]y,b}q` the wildcards before the class leave choices that hold the `y`. A group
that nothing matches may stand in its place. -/
theorem accepts_fill_behind_noneOf_star :
    let flags : Flags := Flags.empty.insert .legacyNegation
    let place : Place :=
      .inside [.anyText] [[.slash]] (.here [.globstar] []) [[.literal ['b']]] [.literal ['q']]
    let path : Path := #['a', '/', 'x', 'q']
    flags.has .legacyNegation = true ∧
      accepts path flags (place.fill [.noneOf [[.literal ['x']]], .literal ['y']]) =
        accepts path flags (place.fill [.noneOf [[.literal ['x']]], .oneOf []]) :=
  ⟨by decide, accepts_fill_behind_noneOf (by decide) _ _ _ _ _⟩

end Search

namespace Pattern

open Search

variable {source : String} {p : Pattern} {path : Path} {flags : Flags} {s : State}
  {alts : List (List Node)} {rest : List Node}

theorem accepts_eq_run (p : Pattern) (path : Path) (flags : Flags) :
    p.accepts path flags =
      run (p.setting path flags) (.initial p.nodes 0) (sound_initial p.nodes 0) := rfl

theorem any_lookahead_of_reaches (h : compile source = .ok p)
    (hs : (p.setting path flags).Reaches (.initial p.nodes 0) s)
    (hnodes : s.nodes = .noneOf alts :: rest) :
    (alts.any fun alt ↦ (p.setting path flags).lookahead alt s.pos) =
      path.hasMember s.pos alts := by
  have hforesees : Node.Everywhere (p.setting path flags).Foresees p.nodes :=
    everywhere_of_negationDepth_le (fun _ ↦ foresees_of_negationDepth_le) (Nat.le_refl _)
  have hforeseen := (hs.everywhere hforesees).nodes
  have hclasses := (hs.everywhere (Node.negatesClass_of_compile h)).nodes
  rw [hnodes, Node.Everywhere] at hforeseen hclasses
  exact any_lookahead_class hforeseen.1.self hclasses.1.self s.pos

/-- **Legacy negation ends a match at top level.** If the walk of a compiled pattern comes to a
negated class none of whose members covers the rune at hand, and no group is open around the class,
then the match is over, with success. Inside a group the search falls short of that: the match is
what comes of the walk behind the group that was entered there, at the same position, with the stack
that leaving the group leaves. Neither depends on what stands behind the class in its own
sequence. -/
theorem sequence_ends_of_legacyNegation (h : compile source = .ok p)
    (hlegacy : flags.has .legacyNegation = true)
    (hs : (p.setting path flags).Reaches (.initial p.nodes 0) s)
    (hnodes : s.nodes = .noneOf alts :: rest) (hnone : path.hasMember s.pos alts = false) :
    (s.continuation = none →
      s.next (p.setting path flags) = .done true ∧ p.accepts path flags = true) ∧
      ∀ i, s.continuation = some i → ∃ before after behind s',
        Entered (p.setting path flags) (.initial p.nodes 0) before after behind i s ∧
          s' = ⟨behind, s.pos, before.continuation,
            if flags.has .fullMatch then s.stack else before.stack, s.arena⟩ ∧
          s.next (p.setting path flags) = .running { s with nodes := [] } ∧
          State.next { s with nodes := [] } (p.setting path flags) = .running s' ∧
          ∃ hsound, p.accepts path flags = run (p.setting path flags) s' hsound := by
  have hinitial := sound_initial p.nodes 0
  have hsound := hs.sound hinitial
  have hnext := next_of_legacyNegation hlegacy hnodes
    ((any_lookahead_of_reaches h hs hnodes).trans hnone)
  constructor
  · intro htop
    rw [htop] at hnext
    refine ⟨hnext, ?_⟩
    rw [accepts_eq_run, hs.run_eq hinitial, run_of_done hsound hnext]
  · intro i hi
    have hmove : s.next (p.setting path flags) = .running { s with nodes := [] } := by
      rw [hnext, hi]
    -- the next move finds no nodes left and leaves the group, which was entered on the way here
    obtain ⟨before, after, behind, hentered, hsuffix⟩ :=
      (groupsEntered_of_reaches hs).chain i (hi ▸ .here)
    have hleave : State.next { s with nodes := [] } (p.setting path flags) =
        .running ⟨behind, s.pos, before.continuation,
          if flags.has .fullMatch then s.stack else before.stack, s.arena⟩ := by
      simp only [State.next, State.leave, hi, hentered.kept, cutBack_entry hsuffix]
      rfl
    have hsound' := (hsound.next hmove).next hleave
    refine ⟨before, after, behind, _, hentered, rfl, hmove, hleave, hsound', ?_⟩
    rw [accepts_eq_run, hs.run_eq hinitial, run_of_running hsound hmove, run_of_running _ hleave]

/-- At `qz` the class of `[!x]yq` excludes the rune at hand and ends the match, although the whole
path has to be matched. In `{[!x]y,b}q` it excludes the same rune, and the walk goes on behind the
group without having left its place. -/
theorem sequence_ends_of_legacyNegation_braces :
    let path : Path := #['q', 'z']
    let flags : Flags := Flags.empty.insert .legacyNegation
    let whole : Flags := flags.insert .fullMatch
    let flat : Pattern := ⟨[.noneOf [[.literal ['x']]], .literal ['y', 'q']]⟩
    let p : Pattern := ⟨[.oneOf [[.noneOf [[.literal ['x']]], .literal ['y']], [.literal ['b']]],
      .literal ['q']]⟩
    let w : Setting := p.setting path flags
    let s : State := ⟨[.noneOf [[.literal ['x']]], .literal ['y']], 0, some 0,
      [⟨.alternatives [[.literal ['b']]] 0, some 0, 1⟩], #[⟨[.literal ['q']], none, some 0⟩]⟩
    path.hasMember 0 [[.literal ['x']]] = false ∧
      (compile "[!x]yq" = .ok flat ∧ whole.has .legacyNegation = true ∧
        (State.initial flat.nodes 0).next (flat.setting path whole) = .done true ∧
        flat.accepts path whole = true) ∧
      compile "\x7b[!x]y,b\x7dq" = .ok p ∧ flags.has .legacyNegation = true ∧
      w.Reaches (.initial p.nodes 0) s ∧
      ∃ before after behind s', Entered w (.initial p.nodes 0) before after behind 0 s ∧
        s' = ⟨behind, s.pos, before.continuation,
          if flags.has .fullMatch then s.stack else before.stack, s.arena⟩ ∧
        s.next w = .running { s with nodes := [] } ∧
        State.next { s with nodes := [] } w = .running s' ∧
        ∃ hsound, p.accepts path flags = run w s' hsound := by
  intro path flags whole flat p w s
  have hnone : path.hasMember 0 [[.literal ['x']]] = false := by decide
  have hflat : compile "[!x]yq" = .ok flat := by cbv
  have hwhole : whole.has .legacyNegation = true := by decide
  obtain ⟨htop, -⟩ := sequence_ends_of_legacyNegation hflat hwhole .refl rfl hnone
  have hcompile : compile "\x7b[!x]y,b\x7dq" = .ok p := by cbv
  have hlegacy : flags.has .legacyNegation = true := by decide
  have henter : (State.initial p.nodes 0).next w = .running s := by cbv
  have hs : w.Reaches (.initial p.nodes 0) s := .single henter
  obtain ⟨-, hbehind⟩ := sequence_ends_of_legacyNegation hcompile hlegacy hs rfl hnone
  exact ⟨hnone, ⟨hflat, hwhole, htop rfl⟩, hcompile, hlegacy, hs, hbehind 0 rfl⟩

/-- In a group the promise of the flag is broken: in `{[!x]y,b}q` at `rz` the class excludes the
rune at hand, and yet the match fails behind the group. -/
theorem not_accepts_of_legacyNegation :
    ¬∀ (source : String) (p : Pattern) (path : Path) (flags : Flags) (s : State)
      (alts : List (List Node)) (rest : List Node), compile source = .ok p →
        flags.has .legacyNegation = true →
        (p.setting path flags).Reaches (.initial p.nodes 0) s → s.nodes = .noneOf alts :: rest →
        path.hasMember s.pos alts = false → p.accepts path flags = true := by
  intro h
  let flags : Flags := Flags.empty.insert .legacyNegation
  let p : Pattern := ⟨[.oneOf [[.noneOf [[.literal ['x']]], .literal ['y']], [.literal ['b']]],
    .literal ['q']]⟩
  let s : State := ⟨[.noneOf [[.literal ['x']]], .literal ['y']], 0, some 0,
    [⟨.alternatives [[.literal ['b']]] 0, some 0, 1⟩], #[⟨[.literal ['q']], none, some 0⟩]⟩
  have hcompile : compile "\x7b[!x]y,b\x7dq" = .ok p := by cbv
  have henter : (State.initial p.nodes 0).next (p.setting #['r', 'z'] flags) = .running s := by cbv
  have haccepts : p.accepts #['r', 'z'] flags = true :=
    h _ p #['r', 'z'] flags s _ _ hcompile (by decide) (.single henter) rfl (by decide)
  have hends : sequenceEnds #['r', 'z'] flags p.nodes 0 = [] := by cbv
  obtain ⟨e, he, -⟩ := accepts_iff.mp haccepts
  rw [hends] at he
  exact List.not_mem_nil he

end Pattern

end PathGlob
