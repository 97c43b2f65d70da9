import PathGlob.Proofs.Syntax.Reader
import PathGlob.Proofs.Syntax.Sound

/-!
# Every text is read to the end

A step of a reader does one of five things: it reads on in the groups that are open, it hands over
to another task at the same place, it opens a group, it goes on to the next alternative of the
innermost group, or it closes that group. `Reader.Move` lists them, and what a reader keeps is
proved from this list. Its depth is the number of the groups that are open, which are never more
than the limit, and each of them remembers the depth at which it was opened. No task that takes a
rune without asking for the end of the text begins at the end.

Some steps read no rune: a loop ends or hands over to what reads the next rune. So the offset does
not grow in every step, but the clock of a reader does, which counts three for each rune and less
for what is done in front of it. A reader is done before its clock has run for the whole text, and
between two rounds of a loop, where the clocks differ in the runes only, it has read some.
-/

namespace PathGlob

/-- A place of a text. -/
structure Cursor.In (text : List Char) (c : Cursor) : Prop where
  /-- The runes from there on are those of the text. -/
  rest_eq : c.rest = text.drop c.offset
  /-- It is not past the end. -/
  offset_le : c.offset ≤ text.length

theorem Cursor.In.passes {text first : List Char} {c next : Cursor} (h : c.In text)
    (hpasses : c.Passes first next) : next.In text := by
  have hrest : text.drop c.offset = first ++ next.rest := h.rest_eq ▸ hpasses.rest_eq
  have hlength := congrArg List.length hrest
  rw [List.length_drop, List.length_append] at hlength
  have hoffset := h.offset_le
  constructor
  · rw [hpasses.offset_eq, ← List.drop_drop, hrest, List.drop_left]
  · rw [hpasses.offset_eq]
    omega

theorem Cursor.In.rune {text rest : List Char} {r : Char} {offset depth depth' : Nat}
    (h : Cursor.In text ⟨r :: rest, offset, depth⟩) :
    Cursor.In text ⟨rest, offset + 1, depth'⟩ := by
  obtain ⟨hrest, hoffset⟩ := h.passes passes_rune
  exact ⟨hrest, hoffset⟩

theorem Cursor.In.offset_eq {text : List Char} {c : Cursor} (h : c.In text) (hrest : c.rest = []) :
    c.offset = text.length := by
  have hend := List.drop_eq_nil_iff.mp (h.rest_eq.symm.trans hrest)
  exact Nat.le_antisymm h.offset_le hend

namespace Reading

open Cursor Grammar

/-! ## The clock -/

namespace Task

/-- The tasks that take a rune without asking whether there is one. -/
def TakesRune : Task → Prop
  | .literal runes => runes = []
  | .lowerBound _ | .upperBound _ _ => True
  | .sequence | .members _ => False

/-- The rounds in the loop of a sequence and in that of a class. -/
def IsRound : Task → Prop
  | .sequence | .members _ => True
  | .literal _ | .lowerBound _ | .upperBound _ _ => False

/-- The order in which tasks hand over to each other in front of one rune. -/
def rank : Task → Nat
  | .literal (_ :: _) => 0
  | .sequence | .members _ => 1
  | .literal [] | .lowerBound _ | .upperBound _ _ => 2

theorem rank_le (task : Task) : task.rank ≤ 2 := by
  rcases task with _ | (_ | ⟨_, _⟩) | _ | _ | _ <;> simp [rank]

theorem IsRound.rank_eq {task : Task} (h : task.IsRound) : task.rank = 1 := by
  cases task with
  | sequence | members => rfl
  | literal | lowerBound | upperBound => exact h.elim

end Task

namespace Reader

/-- How far a reader is. -/
def clock (m : Reader) : Nat := 3 * m.cursor.offset + m.task.rank

/-! ## Kinds of steps -/

/-- The steps of a reader, by what becomes of the groups. -/
inductive Move (m : Reader) : Reader → Prop
  /-- The groups stay as they are, and runes are read. -/
  | read {text : List Char} {next : Cursor} {task : Task} {nodes : List Node}
    (hpasses : m.cursor.Passes text next) (htext : 0 < text.length)
    (htakes : task.TakesRune → next.rest ≠ []) : Move m ⟨next, task, nodes, m.groups⟩
  /-- Another task takes over at the same place. -/
  | handOver {task : Task} {nodes : List Node} (hrank : m.task.rank < task.rank)
    (htakes : task.TakesRune → m.cursor.rest ≠ []) : Move m ⟨m.cursor, task, nodes, m.groups⟩
  /-- A group is opened. -/
  | opens {rest : List Char} {offset depth : Nat} (htask : m.task = .sequence)
    (hcursor : m.cursor = ⟨'\x7b' :: rest, offset, depth⟩) (hdepth : depth < maxGroupDepth) :
    Move m ⟨⟨rest, offset + 1, depth + 1⟩, .sequence, [], ⟨m.cursor, [], m.nodes⟩ :: m.groups⟩
  /-- An alternative of the innermost group ends, and another one follows. -/
  | comma {rest : List Char} {offset depth : Nat} {group : OpenGroup} {groups : List OpenGroup}
    {alternatives : List (List Node)} (htask : m.task = .sequence)
    (hcursor : m.cursor = ⟨',' :: rest, offset, depth⟩) (hgroups : m.groups = group :: groups) :
    Move m ⟨⟨rest, offset + 1, depth⟩, .sequence, [], { group with alternatives } :: groups⟩
  /-- The innermost group is closed. -/
  | closes {rest : List Char} {offset depth : Nat} {group : OpenGroup} {groups : List OpenGroup}
    {nodes : List Node} (htask : m.task = .sequence)
    (hcursor : m.cursor = ⟨'\x7d' :: rest, offset, depth⟩) (hgroups : m.groups = group :: groups) :
    Move m ⟨⟨rest, offset + 1, depth - 1⟩, .sequence, nodes, groups⟩

variable {m m' : Reader} {text rest : List Char} {r : Char} {offset depth : Nat} {next : Cursor}

theorem move_of_goOn {task : Task} (hs : m.goOn task next = .running m')
    (hpasses : m.cursor.Passes text next) (htext : 0 < text.length)
    (htakes : task.TakesRune → next.rest ≠ []) : m.Move m' := by
  cases hs
  exact .read hpasses htext htakes

theorem move_of_push {node : Node} (hs : m.push node next = .running m')
    (hpasses : m.cursor.Passes text next) (htext : 0 < text.length) : m.Move m' := by
  cases hs
  exact .read hpasses htext False.elim

theorem move_of_handOver {task : Task} (hs : m.goOn task m.cursor = .running m')
    (hcursor : m.cursor = ⟨r :: rest, offset, depth⟩) (hrank : m.task.rank < task.rank) :
    m.Move m' := by
  cases hs
  refine .handOver hrank fun _ ↦ ?_
  rw [hcursor]
  exact List.cons_ne_nil _ _

theorem move_of_startItem (htask : m.task = .sequence)
    (hcursor : m.cursor = ⟨r :: rest, offset, depth⟩)
    (hs : m.startItem r rest offset depth = .running m') : m.Move m' := by
  have hone : m.cursor.Passes [r] ⟨rest, offset + 1, depth⟩ := hcursor ▸ passes_rune
  unfold startItem at hs
  split at hs
  · exact move_of_push hs hone (Nat.succ_pos _)
  · split at hs
    · exact move_of_push hs (hone.trans passes_rune) (Nat.succ_pos _)
    · exact move_of_push hs hone (Nat.succ_pos _)
  · exact move_of_push hs hone (Nat.succ_pos _)
  · rw [openGroup] at hs
    split at hs
    · cases hs
    · next hdepth =>
      cases hs
      exact .opens htask hcursor (Nat.not_le.mp hdepth)
  · unfold openClass at hs
    split at hs
    · exact move_of_goOn hs (hone.trans passes_rune) (Nat.succ_pos _) False.elim
    · exact move_of_goOn hs hone (Nat.succ_pos _) False.elim
  · exact move_of_handOver hs hcursor (by rw [htask]; exact Nat.lt_succ_self 1)

theorem move_of_stepSequence (htask : m.task = .sequence) (hs : m.stepSequence = .running m') :
    m.Move m' := by
  rw [stepSequence] at hs
  split at hs
  · cases hs
  · cases hs
  · next hcursor _ => exact move_of_startItem htask hcursor hs
  · next r rest offset depth group groups hcursor hgroups =>
    split at hs
    · next hr =>
      unfold endAlternative at hs
      rcases endsAlternative_iff.mp hr with rfl | rfl
      · rw [if_pos rfl] at hs
        cases hs
        exact .comma htask hcursor hgroups
      · rw [if_neg (by decide)] at hs
        split at hs
        · cases hs
        · cases hs
          exact .closes htask hcursor hgroups
    · exact move_of_startItem htask hcursor hs

theorem exists_passes_of_rune {r' : Char} {h : next.rest.length < rest.length + 1}
    (hrune : rune r rest offset depth = .ok ⟨r', next, h⟩) :
    ∃ text, Passes ⟨r :: rest, offset, depth⟩ text next ∧ 0 < text.length := by
  obtain ⟨text, hpasses, htext⟩ :=
    spelling_of_outcome (fun _ ↦ False) id (outcome_eq_ok.mpr ⟨h, hrune⟩)
  obtain ⟨first, more, rfl, -⟩ := htext.head
  exact ⟨first :: more, hpasses, Nat.succ_pos _⟩

theorem exists_passes_of_classRune {c : Cursor} {r' : Char} {h : next.rest.length < c.rest.length}
    (hrune : classRune c = .ok ⟨r', next, h⟩) : ∃ text, c.Passes text next ∧ 0 < text.length := by
  obtain ⟨rest, offset, depth⟩ := c
  cases rest with
  | nil => cases hrune
  | cons r rest => exact exists_passes_of_rune hrune

theorem move_of_stepLiteral {runes : List Char} (htask : m.task = .literal runes)
    (htakes : m.task.TakesRune → m.cursor.rest ≠ []) (hs : m.stepLiteral runes = .running m') :
    m.Move m' := by
  -- a literal that ends has a rune
  have hends (hne : runes ≠ []) {node : Node} (hpush : m.push node m.cursor = .running m') :
      m.Move m' := by
    obtain ⟨r, runes, rfl⟩ := List.exists_cons_of_ne_nil hne
    cases hpush
    exact .handOver (by rw [htask]; exact Nat.zero_lt_one) False.elim
  rw [stepLiteral] at hs
  split at hs
  · next hcursor =>
    refine hends ?_ hs
    rintro rfl
    exact htakes (by rw [htask]; rfl) (by rw [hcursor])
  · next r rest offset depth hcursor =>
    split at hs
    · next hstops =>
      refine hends ?_ hs
      rintro rfl
      cases hstops
    · split at hs
      · cases hs
      · next r' next _ hrune =>
        obtain ⟨text, hpasses, htext⟩ := exists_passes_of_rune hrune
        exact move_of_goOn hs (hcursor ▸ hpasses) htext (absurd · (List.cons_ne_nil _ _))

theorem move_of_stepMembers {cls : OpenClass} (htask : m.task = .members cls)
    (hs : m.stepMembers cls = .running m') : m.Move m' := by
  rw [stepMembers] at hs
  split at hs
  · cases hs
  · next r rest offset depth hcursor =>
    have hone : m.cursor.Passes [r] ⟨rest, offset + 1, depth⟩ := hcursor ▸ passes_rune
    split at hs
    · split at hs
      · cases hs
      · exact move_of_push hs hone (Nat.succ_pos _)
    · exact move_of_handOver hs hcursor (by rw [htask]; exact Nat.lt_succ_self 1)

theorem move_of_stepLowerBound {cls : OpenClass} (hs : m.stepLowerBound cls = .running m') :
    m.Move m' := by
  rw [stepLowerBound] at hs
  split at hs
  · cases hs
  · next lo next _ hrune =>
    obtain ⟨text, hpasses, htext⟩ := exists_passes_of_classRune hrune
    split at hs
    · split at hs
      · exact move_of_goOn hs hpasses htext False.elim
      · -- the upper bound is asked for where a rune is behind the dash
        refine move_of_goOn hs (hpasses.trans passes_rune) ?_ fun _ ↦ List.cons_ne_nil _ _
        rw [List.length_append]
        exact Nat.succ_pos _
    · exact move_of_goOn hs hpasses htext False.elim

theorem move_of_stepUpperBound {cls : OpenClass} {lo : Char}
    (hs : m.stepUpperBound cls lo = .running m') : m.Move m' := by
  rw [stepUpperBound] at hs
  split at hs
  · cases hs
  · next hi next _ hrune =>
    obtain ⟨text, hpasses, htext⟩ := exists_passes_of_classRune hrune
    split at hs
    · cases hs
    · exact move_of_goOn hs hpasses htext False.elim

theorem move_of_step (htakes : m.task.TakesRune → m.cursor.rest ≠ [])
    (hs : m.step = .running m') : m.Move m' := by
  rw [step] at hs
  split at hs
  · next htask => exact move_of_stepSequence htask hs
  · next htask => exact move_of_stepLiteral htask htakes hs
  · next htask => exact move_of_stepMembers htask hs
  · exact move_of_stepLowerBound hs
  · exact move_of_stepUpperBound hs

/-! ## What a reader keeps -/

/-- What holds of the reader of a text between two steps. -/
structure Orderly (text : List Char) (m : Reader) : Prop where
  /-- It stands in the text. -/
  cursor_in : m.cursor.In text
  /-- A task that takes a rune has one. -/
  rest_ne_nil : m.task.TakesRune → m.cursor.rest ≠ []
  /-- Its depth is the number of the groups that are open. -/
  depth_eq : m.cursor.depth = m.groups.length
  /-- They are not more than the limit. -/
  groups_le : m.groups.length ≤ maxGroupDepth
  /-- Each of them was opened at the depth of those around it. -/
  brace_depth : ∀ group groups, group :: groups <:+ m.groups → group.brace.depth = groups.length

theorem orderly_start (text : List Char) : (start text).Orderly text where
  cursor_in := ⟨rfl, Nat.zero_le _⟩
  rest_ne_nil := False.elim
  depth_eq := rfl
  groups_le := Nat.zero_le _
  brace_depth _ _ hsuffix := by cases List.suffix_nil.mp hsuffix

/-- A step keeps a reader orderly. The depths at which groups were opened stand on the stack from
the outside to the inside, so what is taken from it or put on it is its innermost group. -/
theorem Orderly.move (h : m.Orderly text) (hmove : m.Move m') : m'.Orderly text := by
  obtain ⟨hin, -, hdepth, hgroups, hbraces⟩ := h
  cases hmove with
  | read hpasses _ htakes =>
    exact ⟨hin.passes hpasses, htakes, hpasses.depth_eq.trans hdepth, hgroups, hbraces⟩
  | handOver _ htakes => exact ⟨hin, htakes, hdepth, hgroups, hbraces⟩
  | @opens rest offset depth _ hcursor hlimit =>
    rw [hcursor] at hin hdepth
    refine ⟨hin.rune, False.elim, congrArg (· + 1) hdepth, Nat.succ_le_of_lt ?_, ?_⟩
    · rwa [← hdepth]
    · intro group groups hsuffix
      rcases List.suffix_cons_iff.mp hsuffix with heq | hsuffix
      · cases heq
        rwa [hcursor]
      · exact hbraces group groups hsuffix
  | @comma rest offset depth group groups alternatives _ hcursor hopen =>
    rw [hcursor] at hin hdepth
    rw [hopen] at hdepth hgroups hbraces
    refine ⟨hin.rune, False.elim, hdepth, hgroups, ?_⟩
    intro group' groups' hsuffix
    -- a comma changes the alternatives of the innermost group and not its brace
    rcases List.suffix_cons_iff.mp hsuffix with heq | hsuffix
    · cases heq
      exact hbraces group groups List.suffix_rfl
    · exact hbraces group' groups' (hsuffix.trans (List.suffix_cons _ _))
  | @closes rest offset depth group groups nodes _ hcursor hopen =>
    rw [hcursor] at hin hdepth
    rw [hopen, List.length_cons] at hdepth hgroups
    rw [hopen] at hbraces
    refine ⟨hin.rune, False.elim, ?_, Nat.le_of_succ_le hgroups, ?_⟩
    · exact Nat.sub_eq_of_eq_add hdepth
    · intro group' groups' hsuffix
      exact hbraces group' groups' (hsuffix.trans (List.suffix_cons _ _))

theorem Orderly.step (h : m.Orderly text) (hs : m.step = .running m') : m'.Orderly text :=
  h.move (move_of_step h.rest_ne_nil hs)

theorem Orderly.reaches (h : m.Orderly text) (hreaches : m.Reaches m') : m'.Orderly text := by
  induction hreaches with
  | refl => exact h
  | tail _ hs ih => exact ih.step hs

/-! ## What a step does -/

theorem Move.clock_lt (h : m.Move m') : m.clock < m'.clock := by
  rw [clock, clock]
  cases h with
  | read hpasses htext =>
    have hrank := m.task.rank_le
    rw [hpasses.offset_eq]
    omega
  | handOver hrank => exact Nat.add_lt_add_left hrank _
  | opens htask hcursor | comma htask hcursor | closes htask hcursor =>
    rw [htask, hcursor]
    simp only [Task.rank]
    omega

/-- The clock of a reader does not run much longer than the text. -/
theorem Orderly.clock_le (h : m.Orderly text) : m.clock ≤ 3 * text.length + 2 := by
  have hoffset := h.cursor_in.offset_le
  have hrank := m.task.rank_le
  rw [clock]
  omega

theorem Orderly.clock_le_of_reaches (h : m.Orderly text) (hreaches : m.Reaches m') :
    m.clock ≤ m'.clock := by
  induction hreaches with
  | refl => exact Nat.le_refl _
  | tail hbefore hs ih =>
    have hmid := h.reaches hbefore
    exact Nat.le_trans ih (Nat.le_of_lt (move_of_step hmid.rest_ne_nil hs).clock_lt)

theorem Orderly.offset_lt (h : m.Orderly text) (hs : m.step = .running m')
    {m'' : Reader} (hreaches : m'.Reaches m'') (hround : m.task.IsRound)
    (hround'' : m''.task.IsRound) : m.cursor.offset < m''.cursor.offset := by
  have hlt := (move_of_step h.rest_ne_nil hs).clock_lt
  have hle := (h.step hs).clock_le_of_reaches hreaches
  have hclock : m.clock < m''.clock := Nat.lt_of_lt_of_le hlt hle
  rw [clock, clock, hround.rank_eq, hround''.rank_eq] at hclock
  omega

/-- What a step does to the groups that are open: they stay, or one is opened at the place of the
reader, or the innermost one is closed, and then the depth is what it was where it was opened. -/
def Levels (m m' : Reader) : Prop :=
  m'.groups.map (·.brace) = m.groups.map (·.brace) ∧ m'.cursor.depth = m.cursor.depth ∨
    (∃ group, group.brace = m.cursor ∧ m'.groups = group :: m.groups ∧
      m'.cursor.depth = m.cursor.depth + 1) ∨
    ∃ group, m.groups = group :: m'.groups ∧ m'.cursor.depth = group.brace.depth

theorem Orderly.levels (h : m.Orderly text) (hmove : m.Move m') : m.Levels m' := by
  obtain ⟨-, -, hdepth, -, hbraces⟩ := h
  cases hmove with
  | read hpasses => exact .inl ⟨rfl, hpasses.depth_eq⟩
  | handOver => exact .inl ⟨rfl, rfl⟩
  | opens _ hcursor => exact .inr (.inl ⟨_, rfl, rfl, by rw [hcursor]⟩)
  | comma _ hcursor hopen => exact .inl ⟨by rw [hopen]; rfl, by rw [hcursor]⟩
  | closes _ hcursor hopen =>
    rw [hcursor, hopen, List.length_cons] at hdepth
    have hbrace := hbraces _ _ ⟨[], hopen.symm⟩
    exact .inr (.inr ⟨_, hopen, (Nat.sub_eq_of_eq_add hdepth).trans hbrace.symm⟩)

theorem Orderly.step_tooDeep (h : m.Orderly text) (htask : m.task = .sequence)
    (hrest : m.cursor.rest = '\x7b' :: rest) (hfull : m.groups.length = maxGroupDepth) :
    m.step = .done (.error (.tooDeep m.cursor.offset)) := by
  have hdepth := h.depth_eq
  obtain ⟨⟨_, offset, depth⟩, task, nodes, groups⟩ := m
  cases htask
  cases hrest
  rw [step_eq_startItem (endsAlternative_of_startsItem rfl), startItem, openGroup]
  exact if_pos (Nat.le_of_eq (hdepth.trans hfull).symm)

theorem eq_nil_of_step {p : Pattern} (hs : m.step = .done (.ok p)) :
    m.cursor.rest = [] ∧ m.groups = [] := by
  -- whatever starts an item goes on behind it or is refused
  have hitem {r : Char} {rest : List Char} {offset depth : Nat} :
      m.startItem r rest offset depth ≠ .done (.ok p) := by
    intro heq
    unfold startItem openGroup openClass at heq
    repeat' split at heq
    all_goals cases heq
  unfold step at hs
  split at hs
  · unfold stepSequence at hs
    split at hs
    · next hcursor hgroups => exact ⟨by rw [hcursor], hgroups⟩
    · cases hs
    · exact absurd hs hitem
    · split at hs
      · unfold endAlternative at hs
        repeat' split at hs
        all_goals cases hs
      · exact absurd hs hitem
  · unfold stepLiteral at hs
    repeat' split at hs
    all_goals cases hs
  · unfold stepMembers at hs
    repeat' split at hs
    all_goals cases hs
  · unfold stepLowerBound at hs
    repeat' split at hs
    all_goals cases hs
  · unfold stepUpperBound at hs
    repeat' split at hs
    all_goals cases hs

/-- Along a sequence of steps the clock counts all of them. -/
theorem Orderly.trace {trace : Nat → Reader} (h : (trace 0).Orderly text) {n : Nat}
    (htrace : ∀ i < n, (trace i).step = .running (trace (i + 1))) :
    ∀ i ≤ n, (trace i).Orderly text ∧ (trace 0).clock + i ≤ (trace i).clock := by
  intro i
  induction i with
  | zero => exact fun _ ↦ ⟨h, Nat.le_refl _⟩
  | succ i ih =>
    intro hi
    obtain ⟨horderly, hclock⟩ := ih (Nat.le_of_succ_le hi)
    have hlt := (move_of_step horderly.rest_ne_nil (htrace i hi)).clock_lt
    exact ⟨horderly.step (htrace i hi), by omega⟩

end Reader

end Reading

namespace Pattern

open Reading

/-- **Every text is read to the end, in order.** The reader of a text comes to what compiling the
text gives, in a number of steps that is bounded by the length of the text. Whatever it comes to on
the way, it stands in the text, no bound of a class is read at the end of the text, and no more
groups are open than may be, which are as many as its depth says; a group that is closed gives back
the depth at which it was opened, and the brace of one group too many is refused on the spot. From
one round of a loop to any later round, of this loop or another one, some runes are read. Only at
the end of the text there is a pattern. -/
theorem reader_halts_in_order (source : String) :
    (∃ last, Reader.Reaches (.start source.toList) last ∧ last.step = .done (compile source)) ∧
      (∀ (trace : Nat → Reader) (n : Nat), trace 0 = .start source.toList →
        (∀ i < n, (trace i).step = .running (trace (i + 1))) → n ≤ 3 * source.toList.length + 1) ∧
      ∀ m, Reader.Reaches (.start source.toList) m →
        m.Orderly source.toList ∧
          (∀ m', m.step = .running m' → m.Levels m' ∧
            ∀ m'', m'.Reaches m'' → m.task.IsRound → m''.task.IsRound →
              m.cursor.offset < m''.cursor.offset) ∧
          (∀ rest, m.task = .sequence → m.cursor.rest = '\x7b' :: rest →
            m.groups.length = maxGroupDepth →
              m.step = .done (.error (.tooDeep m.cursor.offset))) ∧
          ∀ p, m.step = .done (.ok p) →
            m.cursor.rest = [] ∧ m.cursor.offset = source.toList.length ∧ m.groups = [] := by
  have hstart := Reader.orderly_start source.toList
  refine ⟨Reader.leadsTo_ofRunes source.toList, ?_, ?_⟩
  · intro trace n hzero htrace
    rw [← hzero] at hstart
    obtain ⟨horderly, hclock⟩ := hstart.trace htrace n (Nat.le_refl n)
    have hle := horderly.clock_le
    have hone : (trace 0).clock = 1 := by rw [hzero]; rfl
    omega
  · intro m hreaches
    have horderly := hstart.reaches hreaches
    refine ⟨horderly, ?_, fun rest ↦ horderly.step_tooDeep, ?_⟩
    · intro m' hs
      exact ⟨horderly.levels (Reader.move_of_step horderly.rest_ne_nil hs),
        fun m'' ↦ horderly.offset_lt hs⟩
    · intro p hs
      obtain ⟨hrest, hgroups⟩ := Reader.eq_nil_of_step hs
      exact ⟨hrest, horderly.cursor_in.offset_eq hrest, hgroups⟩

end Pattern

end PathGlob
