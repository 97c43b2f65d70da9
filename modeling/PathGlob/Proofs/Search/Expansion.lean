import PathGlob.Pattern.Expansion
import PathGlob.Proofs.Search.Decision
import PathGlob.Proofs.Search.Ends

/-!
# Matching by expansions

If the whole path has to be matched, no group commits, and a group with alternatives is no more than
a short way to write several sequences: a walk of a sequence ends where a walk of one of its
expansions does. This needs that no walk is stopped, since a stop inside an alternative lets the
walk go on behind the group, while the same stop in an expansion passes over what came from behind
it.
-/

namespace PathGlob.Search

variable {path : Path} {flags : Flags}

/-! ## Walks of expansions -/

mutual

theorem reached_mem_nodeEnds_iff_expansion (hfull : flags.has .fullMatch = true)
    (hneg : flags.has .legacyNegation = false) : ∀ {node : Node} {pos q : Nat},
    .reached q ∈ nodeEnds path flags node pos ↔
      ∃ nodes ∈ node.expansions, .reached q ∈ sequenceEnds path flags nodes pos
  | .oneOf alts, pos, q => by
    rw [nodeEnds, if_pos hfull, reached_mem_alternativesEnds_iff_expansion hfull hneg,
      Node.expansions]
  | .slash, _, _ | .globstar, _, _ | .anyChar, _, _ | .anyText, _, _ | .literal _, _, _
  | .range _ _, _, _ | .noneOf _, _, _ => by
    simp only [Node.expansions, List.mem_singleton, exists_eq_left, sequenceEnds_singleton]

theorem reached_mem_sequenceEnds_iff_expansion (hfull : flags.has .fullMatch = true)
    (hneg : flags.has .legacyNegation = false) : ∀ {nodes : List Node} {pos q : Nat},
    .reached q ∈ sequenceEnds path flags nodes pos ↔
      ∃ flat ∈ Node.sequenceExpansions nodes, .reached q ∈ sequenceEnds path flags flat pos
  | [], _, _ => by simp [Node.sequenceExpansions]
  | node :: rest, pos, q => by
    rw [reached_mem_sequenceEnds_cons]
    constructor
    · rintro ⟨p, hnode, hrest⟩
      obtain ⟨left, hleft, hp⟩ := (reached_mem_nodeEnds_iff_expansion hfull hneg).mp hnode
      obtain ⟨right, hright, hq⟩ := (reached_mem_sequenceEnds_iff_expansion hfull hneg).mp hrest
      refine ⟨left ++ right, ?_, reached_mem_sequenceEnds_append.mpr ⟨p, hp, hq⟩⟩
      exact Node.mem_sequenceExpansions_cons.mpr ⟨left, hleft, right, hright, rfl⟩
    · rintro ⟨flat, hflat, hmem⟩
      obtain ⟨left, hleft, right, hright, rfl⟩ := Node.mem_sequenceExpansions_cons.mp hflat
      obtain ⟨p, hp, hq⟩ := reached_mem_sequenceEnds_append.mp hmem
      refine ⟨p, ?_, ?_⟩
      · exact (reached_mem_nodeEnds_iff_expansion hfull hneg).mpr ⟨left, hleft, hp⟩
      · exact (reached_mem_sequenceEnds_iff_expansion hfull hneg).mpr ⟨right, hright, hq⟩

theorem reached_mem_alternativesEnds_iff_expansion (hfull : flags.has .fullMatch = true)
    (hneg : flags.has .legacyNegation = false) : ∀ {alts : List (List Node)} {pos q : Nat},
    .reached q ∈ alternativesEnds path flags alts pos ↔
      ∃ flat ∈ Node.alternativesExpansions alts, .reached q ∈ sequenceEnds path flags flat pos
  | [], _, _ => by simp [alternativesEnds, Node.alternativesExpansions]
  | alt :: alts, pos, q => by
    rw [reached_mem_alternativesEnds_cons hneg, reached_mem_sequenceEnds_iff_expansion hfull hneg,
      reached_mem_alternativesEnds_iff_expansion hfull hneg, Node.alternativesExpansions]
    constructor
    · rintro (⟨flat, hflat, hq⟩ | ⟨flat, hflat, hq⟩)
      · exact ⟨flat, List.mem_append_left _ hflat, hq⟩
      · exact ⟨flat, List.mem_append_right _ hflat, hq⟩
    · rintro ⟨flat, hflat, hq⟩
      rcases List.mem_append.mp hflat with hhead | htail
      · exact .inl ⟨flat, hhead, hq⟩
      · exact .inr ⟨flat, htail, hq⟩

end

/-! ## Matches of expansions -/

/-- If no walk is stopped, a match of the whole path is an end of the walk at the end of the
path. -/
theorem accepts_iff_reached_size_of_not_stopped (hfull : flags.has .fullMatch = true)
    {nodes : List Node} (hstops : ∀ p, .stopped p ∉ sequenceEnds path flags nodes 0) :
    accepts path flags nodes = true ↔ .reached path.size ∈ sequenceEnds path flags nodes 0 := by
  rw [accepts_iff]
  constructor
  · rintro ⟨e, he, hmatch⟩
    cases e with
    | reached pos =>
      have hpos : pos = path.size := by simpa [End.isMatch, hfull] using hmatch
      rwa [hpos] at he
    | stopped pos => exact absurd he (hstops pos)
  · intro hmem
    exact ⟨_, hmem, by simp [End.isMatch]⟩

theorem accepts_iff_reached_size (hfull : flags.has .fullMatch = true)
    (hneg : flags.has .legacyNegation = false) {nodes : List Node} :
    accepts path flags nodes = true ↔ .reached path.size ∈ sequenceEnds path flags nodes 0 :=
  accepts_iff_reached_size_of_not_stopped hfull (stopped_notMem_sequenceEnds hneg nodes 0)

/-- **A pattern is the union of its expansions.** If the whole path has to be matched, with either
meaning of the double star, a sequence matches exactly if one of its brace expansions does, and
these hold no plain groups any more. -/
theorem accepts_iff_exists_expansion (hfull : flags.has .fullMatch = true)
    (hneg : flags.has .legacyNegation = false) (path : Path) (nodes : List Node) :
    (accepts path flags nodes = true ↔
        ∃ flat ∈ Node.sequenceExpansions nodes, accepts path flags flat = true) ∧
      ∀ flat ∈ Node.sequenceExpansions nodes, ∀ alts, .oneOf alts ∉ flat := by
  constructor
  · simp only [accepts_iff_reached_size hfull hneg]
    exact reached_mem_sequenceEnds_iff_expansion hfull hneg
  · intro flat hflat alts
    exact Node.oneOf_notMem_of_mem_sequenceExpansions hflat

/-- The group of `a` and of the group of `ab` and `abc` before a double star and a `d`, under both
flags. The third alternative matches, so one of the expansions does. -/
theorem accepts_iff_exists_expansion_nested :
    let flags : Flags := (Flags.empty.insert .fullMatch).insert .legacyGlobstar
    let nodes : List Node :=
      [.oneOf [[.literal ['a']], [.oneOf [[.literal ['a', 'b']], [.literal ['a', 'b', 'c']]]]],
        .globstar, .literal ['d']]
    let path : Path := #['a', 'b', 'c', 'd']
    flags.has .fullMatch = true ∧ flags.has .legacyNegation = false ∧
      accepts path flags nodes = true ∧
      (accepts path flags nodes = true ↔
        ∃ flat ∈ Node.sequenceExpansions nodes, accepts path flags flat = true) ∧
      (∃ flat ∈ Node.sequenceExpansions nodes, accepts path flags flat = true) ∧
      ∀ flat ∈ Node.sequenceExpansions nodes, ∀ alts, .oneOf alts ∉ flat := by
  intro flags nodes path
  have hends : sequenceEnds path flags nodes 0 = [.reached 4] := by cbv
  have hmatch : accepts path flags nodes = true :=
    accepts_of_sequenceEnds_eq hends (by decide)
  have hfull : flags.has .fullMatch = true := by decide
  have hneg : flags.has .legacyNegation = false := by decide
  obtain ⟨hiff, hflat⟩ := accepts_iff_exists_expansion hfull hneg path nodes
  exact ⟨hfull, hneg, hmatch, hiff, hiff.mp hmatch, hflat⟩

end PathGlob.Search
