import PathGlob.Search.Ends

/-!
# The places of a wildcard

A search finds the places of a wildcard one by one, and the list of all of them is said without a
search. Here the two are tied together: the separators from a position on are the next one and then
those behind it, and the rest of a segment is the position at hand and then the rest from the next
rune on.
-/

namespace PathGlob.Path

variable {path : Path} {pos : Nat}

theorem hasSeparator_of_lt (h : pos < path.size) :
    path.hasSeparator pos = isSeparator path[pos] := by
  rw [hasSeparator, Array.getElem?_eq_getElem h, Option.any_some]

theorem separatorsFrom_eq_nil (h : path.size ≤ pos) : path.separatorsFrom pos = [] := by
  rw [separatorsFrom, Nat.sub_eq_zero_of_le h, List.range'_zero, List.filter_nil]

theorem separatorsFrom_of_lt (h : pos < path.size) :
    path.separatorsFrom pos =
      if path.hasSeparator pos then pos :: path.separatorsFrom (pos + 1)
      else path.separatorsFrom (pos + 1) := by
  have hsize : path.size - pos = path.size - (pos + 1) + 1 := by omega
  rw [separatorsFrom, hsize, List.range'_succ, List.filter_cons]
  rfl

theorem separatorsFrom_eq (path : Path) (pos : Nat) :
    path.separatorsFrom pos =
      match path.nextSeparator pos with
      | none => []
      | some i => i :: path.separatorsFrom (i + 1) := by
  fun_induction nextSeparator path pos with
  | case1 pos hpos hsep =>
    rw [separatorsFrom_of_lt hpos, if_pos (by rw [hasSeparator_of_lt hpos, hsep])]
  | case2 pos hpos hsep ih =>
    rw [separatorsFrom_of_lt hpos, if_neg (by rw [hasSeparator_of_lt hpos]; exact hsep), ih]
  | case3 pos hpos => exact separatorsFrom_eq_nil (Nat.le_of_not_lt hpos)

theorem segmentRest_eq_cons (path : Path) (pos : Nat) :
    path.segmentRest pos =
      pos :: if path.hasText pos then path.segmentRest (pos + 1) else [] := by
  rw [segmentRest]
  split
  · rfl
  · rfl

/-! ## What is in the path -/

theorem lt_size_of_any {p : Char → Bool} (h : path[pos]?.any p = true) : pos < path.size := by
  obtain ⟨r, hr, -⟩ := (Option.any_eq_true _ _).mp h
  exact (Array.getElem?_eq_some_iff.mp hr).1

theorem add_length_le_of_spells {runes : List Char}
    (h : path.spells pos runes = true) (hpos : pos ≤ path.size) :
    pos + runes.length ≤ path.size := by
  induction runes generalizing pos with
  | nil => exact hpos
  | cons r runes ih =>
    rw [Path.spells, Bool.and_eq_true, beq_iff_eq] at h
    have hlt : pos < path.size := (Array.getElem?_eq_some_iff.mp h.1).1
    have hrest := ih h.2 hlt
    rw [List.length_cons]
    omega

theorem mem_separatorsFrom {i : Nat} :
    i ∈ path.separatorsFrom pos ↔ pos ≤ i ∧ path.hasSeparator i = true := by
  rw [separatorsFrom, List.mem_filter, List.mem_range'_1]
  constructor
  · rintro ⟨⟨hle, -⟩, hsep⟩
    exact ⟨hle, hsep⟩
  · rintro ⟨hle, hsep⟩
    have hlt : i < path.size := lt_size_of_any hsep
    exact ⟨⟨hle, by omega⟩, hsep⟩

/-- From the first separator on come the same separators as from anywhere before it. -/
theorem separatorsFrom_of_eq_cons {i : Nat} {others : List Nat}
    (h : path.separatorsFrom pos = i :: others) : path.separatorsFrom i = i :: others := by
  have hmem : i ∈ path.separatorsFrom pos := by
    rw [h]
    exact List.mem_cons_self
  have hsep : path.hasSeparator i = true := (mem_separatorsFrom.mp hmem).2
  rw [separatorsFrom_eq] at h
  split at h
  · cases h
  · cases h
    rw [separatorsFrom_of_lt (lt_size_of_any hsep), if_pos hsep]

theorem mem_globstarPlaces {i : Nat} :
    i ∈ path.globstarPlaces pos ↔ i = pos ∨ pos < i ∧ path.hasSeparator i = true := by
  rw [globstarPlaces, List.mem_cons, mem_separatorsFrom, Nat.succ_le_iff]

theorem eq_or_of_mem_globstarPlaces {i : Nat} (h : i ∈ path.globstarPlaces pos) :
    i = pos ∨ pos ≤ i ∧ path.hasSeparator i = true :=
  (mem_globstarPlaces.mp h).imp_right fun ⟨hlt, hsep⟩ ↦ ⟨Nat.le_of_lt hlt, hsep⟩

theorem eq_or_of_mem_legacyGlobstarPlaces {i : Nat} (h : i ∈ path.legacyGlobstarPlaces pos) :
    i = pos ∨ pos ≤ i ∧ path.hasSeparator i = true := by
  rw [legacyGlobstarPlaces] at h
  split at h
  · exact .inl (List.mem_singleton.mp h)
  · next last hlast =>
    right
    rw [List.mem_append, List.mem_singleton] at h
    rcases h with hmem | rfl
    · exact mem_separatorsFrom.mp hmem
    · exact mem_separatorsFrom.mp (List.mem_of_getLast? hlast)

theorem mem_legacyGlobstarPlaces_of_le {i : Nat} (hle : pos ≤ i)
    (hsep : path.hasSeparator i = true) : i ∈ path.legacyGlobstarPlaces pos := by
  have hmem : i ∈ path.separatorsFrom pos := mem_separatorsFrom.mpr ⟨hle, hsep⟩
  rw [legacyGlobstarPlaces]
  split
  · next hnone =>
    rw [List.getLast?_eq_none_iff.mp hnone] at hmem
    exact absurd hmem List.not_mem_nil
  · exact List.mem_append_left _ hmem

/-- A position is in the rest of a segment if no separator and no end of the path comes before
it. -/
theorem mem_segmentRest {i : Nat} :
    i ∈ path.segmentRest pos ↔ pos ≤ i ∧ ∀ j, pos ≤ j → j < i → path.hasText j = true := by
  fun_induction segmentRest path pos with
  | case1 pos htext ih =>
    rw [List.mem_cons, ih]
    constructor
    · rintro (rfl | ⟨hle, hbefore⟩)
      · exact ⟨Nat.le_refl _, by omega⟩
      · refine ⟨by omega, ?_⟩
        intro j hj hji
        rcases Nat.eq_or_lt_of_le hj with rfl | hlt
        · exact htext
        · exact hbefore j hlt hji
    · rintro ⟨hle, hbefore⟩
      rcases Nat.eq_or_lt_of_le hle with heq | hlt
      · exact .inl heq.symm
      · exact .inr ⟨hlt, fun j hj ↦ hbefore j (Nat.le_of_succ_le hj)⟩
  | case2 pos htext =>
    rw [List.mem_singleton]
    constructor
    · rintro rfl
      exact ⟨Nat.le_refl _, by omega⟩
    · rintro ⟨hle, hbefore⟩
      rcases Nat.eq_or_lt_of_le hle with heq | hlt
      · exact heq.symm
      · exact absurd (hbefore pos (Nat.le_refl _) hlt) htext

end PathGlob.Path
