import PathGlob.Proofs.Search.Exchange
import PathGlob.Syntax.Sequence

/-!
# Wildcards in a row

A star goes on to the places of a segment, a double star to the separators of a path, and either
may stay where it is. Standing twice in a row it goes nowhere that it does not go standing once:
what it reaches in two strides it reaches in one. That alone would not do, since a group that
commits keeps the place that comes first. But from the first of its places a wildcard has the same
places over again, in the same order, and so the second one adds nothing but repetitions behind
them (`Settles`). This is so for a star and for a double star of either kind, though these differ in
where they start and in whether they fall back.

A star and a question mark in a row reach the same places in either order, and here there are not
even repetitions.
-/

namespace PathGlob

/-! ## Places that settle -/

/-- Going on from the places of a position leads to the same places again, in the same order before
anything else, and to no others. -/
structure Settles (places : Nat → List Nat) : Prop where
  /-- Every position has a first place, and its places are those of the position. -/
  again : ∀ pos, ∃ first others, places pos = first :: others ∧ places first = places pos
  /-- A place of a place is a place. -/
  closed : ∀ {pos q : Nat}, q ∈ places pos → places q ⊆ places pos

namespace Path

variable (path : Path)

theorem settles_segmentRest : Settles path.segmentRest where
  again pos := ⟨pos, _, path.segmentRest_eq_cons pos, rfl⟩
  closed := by
    intro pos q hq i hi
    rw [mem_segmentRest] at hq hi ⊢
    refine ⟨Nat.le_trans hq.1 hi.1, ?_⟩
    intro j hj hji
    rcases Nat.lt_or_ge j q with hlt | hge
    · exact hq.2 j hj hlt
    · exact hi.2 j hge hji

theorem settles_globstarPlaces : Settles path.globstarPlaces where
  again pos := ⟨pos, path.separatorsFrom (pos + 1), rfl, rfl⟩
  closed := by
    intro pos q hq i hi
    rcases mem_globstarPlaces.mp hi with rfl | ⟨hqi, hsep⟩
    · exact hq
    · rcases mem_globstarPlaces.mp hq with rfl | ⟨hlt, -⟩
      · exact hi
      · exact mem_globstarPlaces.mpr (.inr ⟨Nat.lt_trans hlt hqi, hsep⟩)

theorem settles_legacyGlobstarPlaces : Settles path.legacyGlobstarPlaces where
  again pos := by
    cases hseps : path.separatorsFrom pos with
    | nil =>
      have hstay : path.legacyGlobstarPlaces pos = [pos] := by
        rw [legacyGlobstarPlaces, hseps, List.getLast?_nil]
      exact ⟨pos, [], hstay, rfl⟩
    | cons first others =>
      -- from anywhere before the first separator the places are the same
      have hplaces : ∀ p, path.separatorsFrom p = first :: others →
          path.legacyGlobstarPlaces p =
            first :: (others ++ [(first :: others).getLast (List.cons_ne_nil _ _)]) := by
        intro p hp
        rw [legacyGlobstarPlaces, hp, List.getLast?_eq_some_getLast (List.cons_ne_nil _ _)]
        rfl
      refine ⟨first, _, hplaces pos hseps, ?_⟩
      rw [hplaces first (separatorsFrom_of_eq_cons hseps), hplaces pos hseps]
  closed := by
    intro pos q hq i hi
    rcases eq_or_of_mem_legacyGlobstarPlaces hq with rfl | ⟨hle, hsep⟩
    · exact hi
    · -- the double star has left its position, so there is a separator and it does not stay
      rcases eq_or_of_mem_legacyGlobstarPlaces hi with rfl | ⟨hqi, hsep'⟩
      · exact mem_legacyGlobstarPlaces_of_le hle hsep
      · exact mem_legacyGlobstarPlaces_of_le (Nat.le_trans hle hqi) hsep'

end Path

namespace Search

variable {path : Path} {flags : Flags} {node : Node} {places : Nat → List Nat}

/-! ## Walking a wildcard -/

theorem exists_settles (path : Path) (flags : Flags) (h : node = .anyText ∨ node = .globstar) :
    ∃ places, Settles places ∧
      ∀ pos, nodeEnds path flags node pos = (places pos).map .reached := by
  rcases h with rfl | rfl
  · exact ⟨_, path.settles_segmentRest, fun pos ↦ by rw [nodeEnds]⟩
  · by_cases hlegacy : flags.has .legacyGlobstar = true
    · exact ⟨_, path.settles_legacyGlobstarPlaces, fun pos ↦ by rw [nodeEnds, if_pos hlegacy]⟩
    · exact ⟨_, path.settles_globstarPlaces, fun pos ↦ by rw [nodeEnds, if_neg hlegacy]⟩

/-- The places of the places are the places once more, and then repetitions. -/
theorem alike_flatMap_of_settles (h : Settles places) (pos : Nat) :
    Alike (((places pos).flatMap places).map .reached) ((places pos).map .reached) := by
  obtain ⟨first, others, hplaces, hagain⟩ := h.again pos
  have hsplit : (places pos).flatMap places = places pos ++ others.flatMap places := by
    rw [← hagain, ← List.flatMap_cons, ← hplaces, hagain]
  rw [hsplit, List.map_append]
  apply Alike.append_of_subset
  apply List.map_subset
  intro i hi
  obtain ⟨q, hq, hi⟩ := List.mem_flatMap.mp hi
  have hplace : q ∈ places pos := by
    rw [hplaces]
    exact List.mem_cons_of_mem _ hq
  exact h.closed hplace hi

theorem walksAlike_repeated (h : node = .anyText ∨ node = .globstar) :
    WalksAlike path flags [node, node] [node] := by
  obtain ⟨places, hsettles, hends⟩ := exists_settles path flags h
  intro pos
  have htwice : sequenceEnds path flags [node, node] pos =
      ((places pos).flatMap places).map .reached := by
    rw [sequenceEnds_cons, hends, List.flatMap_map, List.map_flatMap]
    simp only [End.goOn, sequenceEnds_singleton, hends]
  rw [htwice, sequenceEnds_singleton, hends]
  exact alike_flatMap_of_settles hsettles pos

theorem flatMap_segmentRest_anyChar (pos : Nat) :
    (path.segmentRest pos).flatMap (nodeEnds path flags .anyChar) =
      if path.hasText pos then (path.segmentRest (pos + 1)).map .reached else [] := by
  fun_induction Path.segmentRest path pos with
  | case1 pos htext ih =>
    rw [List.flatMap_cons, ih, nodeEnds, if_pos htext, if_pos htext,
      path.segmentRest_eq_cons (pos + 1), List.map_cons, apply_ite (List.map End.reached),
      List.map_nil, List.singleton_append]
  | case2 pos htext =>
    rw [List.flatMap_singleton, nodeEnds, if_neg htext, if_neg htext]

theorem sequenceEnds_anyText_anyChar (pos : Nat) :
    sequenceEnds path flags [.anyText, .anyChar] pos =
      sequenceEnds path flags [.anyChar, .anyText] pos := by
  have hstar : sequenceEnds path flags [.anyText, .anyChar] pos =
      (path.segmentRest pos).flatMap (nodeEnds path flags .anyChar) := by
    rw [sequenceEnds_cons, nodeEnds, List.flatMap_map]
    simp only [End.goOn, sequenceEnds_singleton]
  rw [hstar, flatMap_segmentRest_anyChar, sequenceEnds_cons, nodeEnds]
  split
  · rw [List.flatMap_singleton, End.goOn, sequenceEnds_singleton, nodeEnds]
  · rw [List.flatMap_nil]

/-- **Rows of wildcards may be normalised.** In every place of a pattern, two double stars may be
written as one, two stars as one, and a star before a question mark behind it. -/
theorem accepts_fill_wildcards (place : Place) (path : Path) (flags : Flags) :
    accepts path flags (place.fill [.globstar, .globstar]) =
        accepts path flags (place.fill [.globstar]) ∧
      accepts path flags (place.fill [.anyText, .anyText]) =
        accepts path flags (place.fill [.anyText]) ∧
      accepts path flags (place.fill [.anyText, .anyChar]) =
        accepts path flags (place.fill [.anyChar, .anyText]) := by
  have hswap : WalksAlike path flags [.anyText, .anyChar] [.anyChar, .anyText] :=
    fun pos ↦ .of_eq (sequenceEnds_anyText_anyChar pos)
  refine ⟨?_, ?_, ?_⟩
  · exact ((walksAlike_repeated (.inr rfl)).fill place).accepts_eq
  · exact ((walksAlike_repeated (.inl rfl)).fill place).accepts_eq
  · exact (hswap.fill place).accepts_eq

-- the place behind the `a` is where pattern text has `****`
example : Pattern.compile "\x7ba****,b\x7d" = .ok ⟨(Place.inside [] []
    (.here [.literal ['a']] []) [[.literal ['b']]] []).fill [.globstar, .globstar]⟩ := by cbv

end Search

end PathGlob
