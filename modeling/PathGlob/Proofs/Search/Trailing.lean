import PathGlob.Proofs.Search.Wildcards

/-!
# The last nodes of a pattern

Unless the whole path has to be matched, a match is a walk of all nodes to no matter where, or one
that a negated class stops on its way. So all that the last nodes of a pattern can do is to fail:
more of them never make a match, and those that always find a place never lose one. Nor does a group
at the end lose anything by committing, since nothing comes behind it that could fail at the end
that it keeps and not at another.

A walk that is stopped never gets to the last nodes, whatever they are. It is a match all the same,
which is why a group at the end has to have an alternative in order to be told by its alternatives.
-/

namespace PathGlob.Search

variable {path : Path} {flags : Flags}

/-! ## Walks that go on -/

theorem exists_mem_sequenceEnds_append {left right : List Node} {pos : Nat} :
    (∃ e, e ∈ sequenceEnds path flags (left ++ right) pos) ↔
      ∃ e ∈ sequenceEnds path flags left pos,
        ∀ p, e = .reached p → ∃ e', e' ∈ sequenceEnds path flags right p := by
  simp only [sequenceEnds_append, List.mem_flatMap]
  constructor
  · rintro ⟨e', e, he, hmem⟩
    refine ⟨e, he, ?_⟩
    rintro p rfl
    exact ⟨e', hmem⟩
  · rintro ⟨e, he, hgoOn⟩
    rcases e with p | p
    · obtain ⟨e', hmem⟩ := hgoOn p rfl
      exact ⟨e', .reached p, he, hmem⟩
    · exact ⟨.stopped p, .stopped p, he, List.mem_singleton_self _⟩

/-- There is a walk of a group if there is one of an alternative, whether or not groups commit. -/
theorem exists_mem_nodeEnds_oneOf {alts : List (List Node)} {pos : Nat} :
    (∃ e, e ∈ nodeEnds path flags (.oneOf alts) pos) ↔
      ∃ alt ∈ alts, ∃ e, e ∈ sequenceEnds path flags alt pos := by
  constructor
  · rintro ⟨e, he⟩
    obtain ⟨alt, halt, e', he', -⟩ := mem_nodeEnds_oneOf he
    exact ⟨alt, halt, e', he'⟩
  · rintro ⟨alt, halt, e, he⟩
    have hleave : e.leave ∈ alternativesEnds path flags alts pos :=
      mem_alternativesEnds.mpr ⟨alt, halt, e, he, rfl⟩
    rw [nodeEnds]
    split
    · exact ⟨e.leave, hleave⟩
    · obtain ⟨first, others, hends⟩ := List.exists_cons_of_ne_nil (List.ne_nil_of_mem hleave)
      exact ⟨first, by simp [hends]⟩

theorem exists_mem_sequenceEnds_wildcards {nodes : List Node}
    (h : ∀ node ∈ nodes, node = .anyText ∨ node = .globstar) (pos : Nat) :
    ∃ e, e ∈ sequenceEnds path flags nodes pos := by
  induction nodes generalizing pos with
  | nil => exact ⟨.reached pos, by simp⟩
  | cons node rest ih =>
    obtain ⟨places, hsettles, hends⟩ := exists_settles path flags (h node List.mem_cons_self)
    obtain ⟨first, others, hplaces, -⟩ := hsettles.again pos
    obtain ⟨e, he⟩ := ih (fun node' hnode' ↦ h node' (List.mem_cons_of_mem _ hnode')) first
    refine ⟨e, ?_⟩
    rw [sequenceEnds_cons, List.mem_flatMap]
    refine ⟨.reached first, ?_, he⟩
    rw [hends, hplaces]
    exact List.mem_cons_self

/-! ## Matches -/

/-- **Longer patterns match less.** Unless the whole path has to be matched, a path that matches a
sequence matches every sequence that it begins with, and stars and double stars at the end of a
sequence make no difference. -/
theorem accepts_of_accepts_append (hfull : flags.has .fullMatch = false) (left right : List Node)
    (path : Path) :
    (accepts path flags (left ++ right) = true → accepts path flags left = true) ∧
      ((∀ node ∈ right, node = .anyText ∨ node = .globstar) →
        (accepts path flags (left ++ right) = true ↔ accepts path flags left = true)) := by
  simp only [accepts_iff_exists_mem hfull, exists_mem_sequenceEnds_append]
  have hfewer : (∃ e ∈ sequenceEnds path flags left 0,
      ∀ p, e = .reached p → ∃ e', e' ∈ sequenceEnds path flags right p) →
        ∃ e, e ∈ sequenceEnds path flags left 0 := by
    rintro ⟨e, he, -⟩
    exact ⟨e, he⟩
  refine ⟨hfewer, ?_⟩
  intro hwildcards
  refine ⟨hfewer, ?_⟩
  rintro ⟨e, he⟩
  exact ⟨e, he, fun p _ ↦ exists_mem_sequenceEnds_wildcards hwildcards p⟩

/-- A group that commits to taking no rune and then a negated class, with a double star and a star
behind them, at `b/c` under `legacyGlobstar`. -/
theorem accepts_of_accepts_append_wildcards :
    let flags : Flags := Flags.empty.insert .legacyGlobstar
    let left : List Node :=
      [.oneOf [[.anyText], [.literal ['b']]], .noneOf [[.literal ['x']]]]
    let right : List Node := [.globstar, .anyText]
    let path : Path := #['b', '/', 'c']
    flags.has .fullMatch = false ∧
      (accepts path flags (left ++ right) = true ∧ accepts path flags left = true) ∧
      (∀ node ∈ right, node = .anyText ∨ node = .globstar) ∧
        (accepts path flags (left ++ right) = true ↔ accepts path flags left = true) := by
  intro flags left right path
  have hfull : flags.has .fullMatch = false := by decide
  have hends : sequenceEnds path flags (left ++ right) 0 = [.reached 1, .reached 1] := by cbv
  have hmatch : accepts path flags (left ++ right) = true :=
    accepts_of_sequenceEnds_eq hends (by decide)
  have hwildcards : ∀ node ∈ right, node = .anyText ∨ node = .globstar := by simp [right]
  obtain ⟨hfewer, hsame⟩ := accepts_of_accepts_append hfull left right path
  exact ⟨hfull, ⟨hmatch, hfewer hmatch⟩, hwildcards, hsame hwildcards⟩

/-- **A group at the end loses nothing by committing.** Unless the whole path has to be matched, a
sequence that ends in a group matches exactly if it does with one of the alternatives in place of
the group. -/
theorem accepts_append_oneOf_iff (hfull : flags.has .fullMatch = false) {alts : List (List Node)}
    (hne : alts ≠ []) (left : List Node) (path : Path) :
    accepts path flags (left ++ [.oneOf alts]) = true ↔
      ∃ alt ∈ alts, accepts path flags (left ++ alt) = true := by
  simp only [accepts_iff_exists_mem hfull, exists_mem_sequenceEnds_append, sequenceEnds_singleton,
    exists_mem_nodeEnds_oneOf]
  constructor
  · rintro ⟨e, he, hgoOn⟩
    rcases e with p | p
    · obtain ⟨alt, halt, hwalk⟩ := hgoOn p rfl
      refine ⟨alt, halt, .reached p, he, ?_⟩
      rintro q ⟨⟩
      exact hwalk
    · -- the walk never came to the group, so any alternative may stand for it
      obtain ⟨alt, halt⟩ := List.exists_mem_of_ne_nil alts hne
      exact ⟨alt, halt, .stopped p, he, fun q hq ↦ End.noConfusion hq⟩
  · rintro ⟨alt, halt, e, he, hgoOn⟩
    exact ⟨e, he, fun p hp ↦ ⟨alt, halt, hgoOn p hp⟩⟩

/-- The first group commits to the `a` and loses the `ab`; the last one takes what is there, with
its second alternative. -/
theorem accepts_append_oneOf_iff_commit :
    let alts : List (List Node) := [[.literal ['c']], [.anyChar, .noneOf [[.literal ['x']]]]]
    let left : List Node := [.oneOf [[.literal ['a']], [.literal ['a', 'b']]]]
    let path : Path := #['a', 'b', 'c']
    Flags.empty.has .fullMatch = false ∧ alts ≠ [] ∧
      accepts path .empty (left ++ [.oneOf alts]) = true ∧
      (accepts path .empty (left ++ [.oneOf alts]) = true ↔
        ∃ alt ∈ alts, accepts path .empty (left ++ alt) = true) ∧
      ∃ alt ∈ alts, accepts path .empty (left ++ alt) = true := by
  intro alts left path
  have hends : sequenceEnds path .empty (left ++ [.oneOf alts]) 0 = [.reached 3] := by cbv
  have hmatch : accepts path .empty (left ++ [.oneOf alts]) = true :=
    accepts_of_sequenceEnds_eq hends (by decide)
  have hfull : Flags.empty.has .fullMatch = false := by decide
  have hne : alts ≠ [] := List.cons_ne_nil _ _
  have hiff := accepts_append_oneOf_iff hfull hne left path
  exact ⟨hfull, hne, hmatch, hiff, hiff.mp hmatch⟩

end PathGlob.Search
