import PathGlob.Proofs.Search.Places

/-!
# Membership in lists of ends

Which ends a walk has, without their order and number. A walk goes forward and stays in the path,
and a walk of two parts that is not stopped goes through a position between them. Only a negated
class stops a walk, and only under `legacyNegation`.
-/

namespace PathGlob.Search

variable {path : Path} {flags : Flags}

theorem sequenceEnds_singleton (node : Node) (pos : Nat) :
    sequenceEnds path flags [node] pos = nodeEnds path flags node pos := by
  have hgoOn : ∀ e : End, e.goOn (sequenceEnds path flags []) = [e] := by
    intro e
    cases e <;> simp [End.goOn]
  rw [sequenceEnds_cons]
  simp only [hgoOn, List.flatMap_singleton']

theorem mem_alternativesEnds {alts : List (List Node)} {pos : Nat} {e : End} :
    e ∈ alternativesEnds path flags alts pos ↔
      ∃ alt ∈ alts, ∃ e' ∈ sequenceEnds path flags alt pos, e = e'.leave := by
  induction alts with
  | nil => simp [alternativesEnds]
  | cons alt alts ih =>
    rw [alternativesEnds, List.mem_append, ih, List.mem_map]
    constructor
    · rintro (⟨e', he', rfl⟩ | ⟨alt', halt', hmem⟩)
      · exact ⟨alt, List.mem_cons_self, e', he', rfl⟩
      · exact ⟨alt', List.mem_cons_of_mem _ halt', hmem⟩
    · rintro ⟨alt', halt', e', he', rfl⟩
      rcases List.mem_cons.mp halt' with rfl | htail
      · exact .inl ⟨e', he', rfl⟩
      · exact .inr ⟨alt', htail, e', he', rfl⟩

theorem mem_nodeEnds_oneOf {alts : List (List Node)} {pos : Nat} {e : End}
    (h : e ∈ nodeEnds path flags (.oneOf alts) pos) :
    ∃ alt ∈ alts, ∃ e' ∈ sequenceEnds path flags alt pos, e = e'.leave := by
  rw [nodeEnds] at h
  split at h
  · exact mem_alternativesEnds.mp h
  · exact mem_alternativesEnds.mp (List.mem_of_mem_take h)

theorem reached_mem_sequenceEnds_append {left right : List Node} {pos q : Nat} :
    .reached q ∈ sequenceEnds path flags (left ++ right) pos ↔
      ∃ p, .reached p ∈ sequenceEnds path flags left pos ∧
        .reached q ∈ sequenceEnds path flags right p := by
  rw [sequenceEnds_append, List.mem_flatMap]
  constructor
  · rintro ⟨e, he, hmem⟩
    cases e with
    | reached p => exact ⟨p, he, hmem⟩
    | stopped p => exact End.noConfusion (List.mem_singleton.mp hmem)
  · rintro ⟨p, hp, hmem⟩
    exact ⟨_, hp, hmem⟩

theorem reached_mem_sequenceEnds_cons {node : Node} {rest : List Node} {pos q : Nat} :
    .reached q ∈ sequenceEnds path flags (node :: rest) pos ↔
      ∃ p, .reached p ∈ nodeEnds path flags node pos ∧
        .reached q ∈ sequenceEnds path flags rest p := by
  rw [← List.singleton_append, reached_mem_sequenceEnds_append, sequenceEnds_singleton]

/-! ## Where walks lead -/

mutual

theorem le_pos_of_mem_nodeEnds : ∀ {node : Node} {pos : Nat} {e : End}, pos ≤ path.size →
    e ∈ nodeEnds path flags node pos → pos ≤ e.pos ∧ e.pos ≤ path.size
  | .slash, pos, e, _, h | .anyChar, pos, e, _, h | .range _ _, pos, e, _, h => by
    rw [nodeEnds, List.mem_ite_nil_right, List.mem_singleton] at h
    obtain ⟨hrune, rfl⟩ := h
    exact ⟨Nat.le_succ pos, Path.lt_size_of_any hrune⟩
  | .literal runes, pos, e, hpos, h => by
    rw [nodeEnds, List.mem_ite_nil_right, List.mem_singleton] at h
    obtain ⟨hspells, rfl⟩ := h
    exact ⟨Nat.le_add_right _ _, Path.add_length_le_of_spells hspells hpos⟩
  | .globstar, pos, e, hpos, h => by
    rw [nodeEnds, List.mem_map] at h
    obtain ⟨q, hq, rfl⟩ := h
    have hplace : q = pos ∨ pos ≤ q ∧ path.hasSeparator q = true := by
      split at hq
      · exact Path.eq_or_of_mem_legacyGlobstarPlaces hq
      · exact Path.eq_or_of_mem_globstarPlaces hq
    rcases hplace with rfl | ⟨hle, hsep⟩
    · exact ⟨Nat.le_refl _, hpos⟩
    · exact ⟨hle, Nat.le_of_lt (Path.lt_size_of_any hsep)⟩
  | .anyText, pos, e, hpos, h => by
    rw [nodeEnds, List.mem_map] at h
    obtain ⟨q, hq, rfl⟩ := h
    obtain ⟨hle, htext⟩ := Path.mem_segmentRest.mp hq
    refine ⟨hle, ?_⟩
    rcases Nat.eq_or_lt_of_le hle with rfl | hlt
    · exact hpos
    · -- the rune before the place is text of the segment, so it is there
      have hlast := Path.lt_size_of_hasText (htext (q - 1) (by omega) (by omega))
      exact Nat.le_of_pred_lt hlast
  | .oneOf alts, pos, e, hpos, h => by
    rw [nodeEnds] at h
    split at h
    · exact le_pos_of_mem_alternativesEnds hpos h
    · exact le_pos_of_mem_alternativesEnds hpos (List.mem_of_mem_take h)
  | .noneOf alts, pos, e, hpos, h => by
    rw [nodeEnds] at h
    split at h
    · exact absurd h List.not_mem_nil
    split at h
    · obtain rfl := List.mem_singleton.mp h
      exact ⟨Nat.le_refl _, hpos⟩
    · rw [List.mem_ite_nil_right, List.mem_singleton] at h
      obtain ⟨hlt, rfl⟩ := h
      exact ⟨Nat.le_succ pos, hlt⟩

/-- A walk goes forward and stays in the path. -/
theorem le_pos_of_mem_sequenceEnds : ∀ {nodes : List Node} {pos : Nat} {e : End}, pos ≤ path.size →
    e ∈ sequenceEnds path flags nodes pos → pos ≤ e.pos ∧ e.pos ≤ path.size
  | [], pos, e, hpos, h => by
    rw [sequenceEnds_nil, List.mem_singleton] at h
    subst h
    exact ⟨Nat.le_refl _, hpos⟩
  | node :: rest, pos, e, hpos, h => by
    rw [sequenceEnds_cons, List.mem_flatMap] at h
    obtain ⟨mid, hmid, he⟩ := h
    have hnode := le_pos_of_mem_nodeEnds hpos hmid
    cases mid with
    | reached p =>
      have hrest := le_pos_of_mem_sequenceEnds hnode.2 he
      exact ⟨Nat.le_trans hnode.1 hrest.1, hrest.2⟩
    | stopped p =>
      obtain rfl := List.mem_singleton.mp he
      exact hnode

theorem le_pos_of_mem_alternativesEnds : ∀ {alts : List (List Node)} {pos : Nat} {e : End},
    pos ≤ path.size → e ∈ alternativesEnds path flags alts pos → pos ≤ e.pos ∧ e.pos ≤ path.size
  | [], _, _, _, h => by
    rw [alternativesEnds] at h
    exact absurd h List.not_mem_nil
  | alt :: alts, pos, e, hpos, h => by
    rw [alternativesEnds, List.mem_append, List.mem_map] at h
    rcases h with ⟨e', he', rfl⟩ | htail
    · have halt := le_pos_of_mem_sequenceEnds hpos he'
      exact halt
    · exact le_pos_of_mem_alternativesEnds hpos htail

end

/-! ## Stops -/

/-- Only a negated group stops a walk, and only under `legacyNegation`. -/
theorem of_stopped_mem_nodeEnds {node : Node} {pos p : Nat}
    (h : .stopped p ∈ nodeEnds path flags node pos) :
    flags.has .legacyNegation = true ∧ ∃ alts, node = .noneOf alts := by
  cases node with
  | slash | anyChar | literal | range =>
    rw [nodeEnds] at h
    split at h <;> simp at h
  | globstar | anyText => simp [nodeEnds] at h
  | oneOf alts =>
    -- a group sees no stops of its alternatives
    obtain ⟨alt, -, e, -, heq⟩ := mem_nodeEnds_oneOf h
    exact End.noConfusion heq
  | noneOf alts =>
    refine ⟨?_, alts, rfl⟩
    rw [nodeEnds] at h
    repeat' split at h
    all_goals simp_all

theorem of_stopped_mem_sequenceEnds {nodes : List Node} {pos p : Nat}
    (h : .stopped p ∈ sequenceEnds path flags nodes pos) :
    flags.has .legacyNegation = true ∧ ∃ alts, .noneOf alts ∈ nodes := by
  induction nodes generalizing pos with
  | nil => simp at h
  | cons node rest ih =>
    rw [sequenceEnds_cons, List.mem_flatMap] at h
    obtain ⟨e, he, hmem⟩ := h
    cases e with
    | reached q =>
      obtain ⟨hflags, alts, halts⟩ := ih hmem
      exact ⟨hflags, alts, List.mem_cons_of_mem _ halts⟩
    | stopped q =>
      obtain ⟨hflags, alts, rfl⟩ := of_stopped_mem_nodeEnds he
      exact ⟨hflags, alts, List.mem_cons_self⟩

section NoStops

variable (hflags : flags.has .legacyNegation = false)

include hflags

theorem stopped_notMem_sequenceEnds (nodes : List Node) (pos p : Nat) :
    .stopped p ∉ sequenceEnds path flags nodes pos := by
  intro h
  have htrue := (of_stopped_mem_sequenceEnds h).1
  rw [hflags] at htrue
  exact Bool.noConfusion htrue

theorem reached_mem_alternativesEnds {alts : List (List Node)} {pos q : Nat} :
    .reached q ∈ alternativesEnds path flags alts pos ↔
      ∃ alt ∈ alts, .reached q ∈ sequenceEnds path flags alt pos := by
  rw [mem_alternativesEnds]
  constructor
  · rintro ⟨alt, halt, e, he, heq⟩
    cases e with
    | reached p =>
      cases heq
      exact ⟨alt, halt, he⟩
    | stopped p => exact absurd he (stopped_notMem_sequenceEnds hflags alt pos p)
  · rintro ⟨alt, halt, hmem⟩
    exact ⟨alt, halt, _, hmem, rfl⟩

theorem reached_mem_alternativesEnds_cons {alt : List Node} {alts : List (List Node)}
    {pos q : Nat} :
    .reached q ∈ alternativesEnds path flags (alt :: alts) pos ↔
      .reached q ∈ sequenceEnds path flags alt pos ∨
        .reached q ∈ alternativesEnds path flags alts pos := by
  simp [reached_mem_alternativesEnds hflags]

end NoStops

end PathGlob.Search
