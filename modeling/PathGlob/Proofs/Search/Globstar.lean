import PathGlob.Proofs.Search.Classes
import PathGlob.Proofs.Search.Decision
import PathGlob.Proofs.Syntax.Shape

/-!
# The two double stars

Under `legacyGlobstar` a double star goes to separators and stays where it stands only if there is
none, while otherwise it may always stay. So it never goes to a place to which the other one does
not go, and a walk has no ends that it would not have without the flag. The two do not come upon
these ends in the same order, and so a group that commits may keep different ones: the flag
restricts matching only where nothing commits, which is so under `fullMatch` and for classes.

A negated group turns more ends into fewer. If it is a class, it has no double star in it, and
nothing turns. That is why the patterns here are compiled ones.
-/

namespace PathGlob

theorem Path.legacyGlobstarPlaces_subset (path : Path) (pos : Nat) :
    path.legacyGlobstarPlaces pos ⊆ path.globstarPlaces pos := by
  intro i hi
  rw [mem_globstarPlaces]
  rcases eq_or_of_mem_legacyGlobstarPlaces hi with rfl | ⟨hle, hsep⟩
  · exact .inl rfl
  · exact (Nat.eq_or_lt_of_le hle).imp Eq.symm fun hlt ↦ ⟨hlt, hsep⟩

namespace Search

variable {path : Path} {flags : Flags} {nodes : List Node} {pos : Nat}

/-! ## Walks -/

mutual

theorem nodeEnds_subset_of_legacyGlobstar (hfull : flags.has .fullMatch = true) :
    ∀ {node : Node} {pos : Nat}, node.Throughout Node.NegatesClass →
      nodeEnds path (flags.insert .legacyGlobstar) node pos ⊆ nodeEnds path flags node pos
  | .globstar, pos, _ => by
    rw [nodeEnds, nodeEnds, Flags.has_insert, decide_eq_true rfl, Bool.or_true, if_pos rfl]
    split
    · exact List.Subset.refl _
    · exact List.map_subset _ (path.legacyGlobstarPlaces_subset pos)
  | .oneOf alts, pos, hnode => by
    rw [nodeEnds, nodeEnds, Flags.has_insert, hfull, Bool.true_or, if_pos rfl, if_pos rfl]
    exact alternativesEnds_subset_of_legacyGlobstar hfull hnode.2
  | .noneOf alts, pos, hnode => by
    -- whether a member matches does not depend on flags, so the excluded runes stay the same
    have hclass : Node.ClassOnly (.noneOf alts) := hnode.1 alts rfl
    have hnegation : (flags.insert .legacyGlobstar).has .legacyNegation =
        flags.has .legacyNegation := by simp
    rw [nodeEnds_negatedClass hclass, nodeEnds_negatedClass hclass, hnegation]
    exact List.Subset.refl _
  | .slash, _, _ | .anyChar, _, _ | .anyText, _, _ | .literal _, _, _ | .range _ _, _, _ => by
    rw [nodeEnds, nodeEnds]
    exact List.Subset.refl _

theorem sequenceEnds_subset_of_legacyGlobstar (hfull : flags.has .fullMatch = true) :
    ∀ {nodes : List Node} {pos : Nat}, Node.Everywhere Node.NegatesClass nodes →
      sequenceEnds path (flags.insert .legacyGlobstar) nodes pos ⊆ sequenceEnds path flags nodes pos
  | [], _, _ => by
    rw [sequenceEnds_nil, sequenceEnds_nil]
    exact List.Subset.refl _
  | node :: rest, pos, hnodes => by
    intro e he
    rw [sequenceEnds_cons, List.mem_flatMap] at he ⊢
    obtain ⟨mid, hmid, he⟩ := he
    refine ⟨mid, nodeEnds_subset_of_legacyGlobstar hfull hnodes.1 hmid, ?_⟩
    rcases mid with p | p
    · exact sequenceEnds_subset_of_legacyGlobstar hfull hnodes.2 he
    · exact he

theorem alternativesEnds_subset_of_legacyGlobstar (hfull : flags.has .fullMatch = true) :
    ∀ {alts : List (List Node)} {pos : Nat}, Node.EverywhereIn Node.NegatesClass alts →
      alternativesEnds path (flags.insert .legacyGlobstar) alts pos ⊆
        alternativesEnds path flags alts pos
  | [], _, _ => by
    rw [alternativesEnds]
    exact List.nil_subset _
  | alt :: alts, pos, halts => by
    rw [alternativesEnds, alternativesEnds, List.append_subset]
    constructor
    · apply List.subset_append_of_subset_left
      exact List.map_subset _ (sequenceEnds_subset_of_legacyGlobstar hfull halts.1)
    · apply List.subset_append_of_subset_right
      exact alternativesEnds_subset_of_legacyGlobstar hfull halts.2

end

/-- If all groups are classes, every end of a walk under `legacyGlobstar` is one without it, since
classes lose nothing by committing. -/
theorem sequenceEnds_subset_of_classOnly (hclass : Node.Everywhere Node.ClassOnly nodes)
    (hnegated : Node.Everywhere Node.NegatesClass nodes) :
    sequenceEnds path (flags.insert .legacyGlobstar) nodes pos ⊆
      sequenceEnds path flags nodes pos := by
  intro e he
  have hlegacy :
      e ∈ sequenceEnds path ((flags.insert .fullMatch).insert .legacyGlobstar) nodes pos :=
    (mem_sequenceEnds_congr_of_classOnly (by simp) (by simp) hclass).mpr he
  have hwhole : e ∈ sequenceEnds path (flags.insert .fullMatch) nodes pos :=
    sequenceEnds_subset_of_legacyGlobstar (by simp) hnegated hlegacy
  exact (mem_sequenceEnds_congr_of_classOnly (by simp) (by simp) hclass).mp hwhole

/-! ## Matches -/

theorem accepts_of_subset (hends : sequenceEnds path (flags.insert .legacyGlobstar) nodes 0 ⊆
      sequenceEnds path flags nodes 0)
    (hmatch : accepts path (flags.insert .legacyGlobstar) nodes = true) :
    accepts path flags nodes = true := by
  obtain ⟨e, he, hend⟩ := accepts_iff.mp hmatch
  have hsame : e.isMatch path (flags.insert .legacyGlobstar) = e.isMatch path flags := by
    cases e <;> simp [End.isMatch]
  exact accepts_iff.mpr ⟨e, hends he, hsame ▸ hend⟩

end Search

namespace Pattern

open Search

/-- **The legacy double star only restricts matching** where nothing commits. If the whole path has
to be matched then whatever a compiled pattern matches under `legacyGlobstar` it matches without it,
with either meaning of negated classes. If all groups of the pattern are classes then this is so for
beginnings of the path as well. -/
theorem accepts_of_accepts_legacyGlobstar {source : String} {p : Pattern}
    (h : compile source = .ok p) (path : Path) (flags : Flags) :
    (flags.has .fullMatch = true → p.accepts path (flags.insert .legacyGlobstar) = true →
        p.accepts path flags = true) ∧
      (Node.Everywhere Node.ClassOnly p.nodes →
        p.accepts path (flags.insert .legacyGlobstar) = true → p.accepts path flags = true) := by
  have hnegated : Node.Everywhere Node.NegatesClass p.nodes := Node.negatesClass_of_compile h
  constructor
  · intro hfull
    exact accepts_of_subset (sequenceEnds_subset_of_legacyGlobstar hfull hnegated)
  · intro hclass
    exact accepts_of_subset (sequenceEnds_subset_of_classOnly hclass hnegated)

/-- In `**[!b]{x,y}` at `a/xz` the legacy double star goes to the separator, which the negated class
takes. The whole of `a/x` is a match, and a beginning of `a/xz` is. -/
theorem accepts_of_accepts_legacyGlobstar_class :
    let p : Pattern := ⟨[.globstar, .noneOf [[.literal ['b']]],
      .oneOf [[.literal ['x']], [.literal ['y']]]]⟩
    let whole : Flags := Flags.empty.insert .fullMatch
    compile "**[!b]\x7bx,y\x7d" = .ok p ∧
      (p.accepts #['a', '/', 'x'] (whole.insert .legacyGlobstar) = true ∧
        p.accepts #['a', '/', 'x'] whole = true) ∧
      Node.Everywhere Node.ClassOnly p.nodes ∧
      p.accepts #['a', '/', 'x', 'z'] (Flags.empty.insert .legacyGlobstar) = true ∧
        p.accepts #['a', '/', 'x', 'z'] .empty = true := by
  intro p whole
  have hcompile : compile "**[!b]\x7bx,y\x7d" = .ok p := by cbv
  have hends : sequenceEnds #['a', '/', 'x'] (whole.insert .legacyGlobstar) p.nodes 0 =
      [.reached 3, .reached 3] := by cbv
  have hwhole : p.accepts #['a', '/', 'x'] (whole.insert .legacyGlobstar) = true :=
    accepts_of_sequenceEnds_eq hends (by decide)
  have hends' : sequenceEnds #['a', '/', 'x', 'z'] (Flags.empty.insert .legacyGlobstar) p.nodes 0 =
      [.reached 3, .reached 3] := by cbv
  have hbeginning : p.accepts #['a', '/', 'x', 'z'] (Flags.empty.insert .legacyGlobstar) = true :=
    accepts_of_sequenceEnds_eq hends' (by decide)
  have hclass : Node.Everywhere Node.ClassOnly p.nodes := by
    simp [p, Node.Everywhere, Node.Throughout, Node.EverywhereIn, Node.ClassOnly]
  exact ⟨hcompile, ⟨hwhole, (accepts_of_accepts_legacyGlobstar hcompile _ _).1 (by decide) hwhole⟩,
    hclass, hbeginning, (accepts_of_accepts_legacyGlobstar hcompile _ _).2 hclass hbeginning⟩

end Pattern

end PathGlob
