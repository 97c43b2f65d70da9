import PathGlob.Pattern.Everywhere
import PathGlob.Proofs.Syntax.RoundTrip

/-!
# Conditions that come with the shape

What compiles is well-shaped, and a well-shaped sequence is so at every depth. So a condition on
single nodes that follows from their shape holds everywhere in a compiled pattern. Ranges are the
one exception to shape, since they stand in classes only, and so the condition has to be known of
them beforehand.
-/

namespace PathGlob.Node

variable {P : Node → Prop}

theorem Everywhere.of_isMember (hP : ∀ node, WellShaped node → P node)
    (hrange : ∀ lo hi, P (.range lo hi)) {alt : List Node} (h : IsMember alt) :
    Everywhere P alt := by
  rcases isMember_iff.mp h with ⟨r, rfl⟩ | ⟨lo, hi, rfl, -⟩
  · exact ⟨hP _ (List.cons_ne_nil r []), trivial⟩
  · exact ⟨hrange lo hi, trivial⟩

mutual

theorem Throughout.of_wellShaped (hP : ∀ node, WellShaped node → P node)
    (hrange : ∀ lo hi, P (.range lo hi)) : ∀ {node : Node}, WellShaped node → Throughout P node
  | .oneOf alts, h => by
    refine ⟨hP _ h, ?_⟩
    rw [WellShaped] at h
    rcases h with ⟨-, hmembers⟩ | ⟨-, -, halts⟩
    · exact everywhereIn_iff.mpr fun alt halt ↦ .of_isMember hP hrange (hmembers alt halt)
    · exact EverywhereIn.of_wellShaped hP hrange halts
  | .noneOf alts, h => by
    refine ⟨hP _ h, ?_⟩
    rw [WellShaped] at h
    exact everywhereIn_iff.mpr fun alt halt ↦ .of_isMember hP hrange (h.2 alt halt)
  | .slash, h | .globstar, h | .anyChar, h | .anyText, h | .literal _, h | .range _ _, h => hP _ h

theorem Everywhere.of_wellShaped (hP : ∀ node, WellShaped node → P node)
    (hrange : ∀ lo hi, P (.range lo hi)) :
    ∀ {nodes : List Node}, SequenceWellShaped nodes → Everywhere P nodes
  | [], _ => trivial
  | node :: rest, h => by
    rw [SequenceWellShaped] at h
    exact ⟨Throughout.of_wellShaped hP hrange h.1, Everywhere.of_wellShaped hP hrange h.2.2⟩

theorem EverywhereIn.of_wellShaped (hP : ∀ node, WellShaped node → P node)
    (hrange : ∀ lo hi, P (.range lo hi)) :
    ∀ {alts : List (List Node)}, AlternativesWellShaped alts → EverywhereIn P alts
  | [], _ => trivial
  | alt :: alts, h => by
    rw [AlternativesWellShaped] at h
    exact ⟨Everywhere.of_wellShaped hP hrange h.1, EverywhereIn.of_wellShaped hP hrange h.2⟩

end

theorem classOnly_of_isClass {alts : List (List Node)} (h : IsClass alts) :
    ClassOnly (.oneOf alts) := by
  intro alt halt
  rcases isMember_iff.mp (h.2 alt halt) with hrune | ⟨lo, hi, heq, -⟩
  · exact .inl hrune
  · exact .inr ⟨lo, hi, heq⟩

/-- A compiled pattern negates nothing but classes. -/
theorem negatesClass_of_compile {source : String} {p : Pattern}
    (h : Pattern.compile source = .ok p) : Everywhere NegatesClass p.nodes := by
  refine .of_wellShaped ?_ ?_ (Pattern.canonical_of_compile h).wellShaped
  · rintro node hnode alts rfl
    rw [WellShaped] at hnode
    exact classOnly_of_isClass hnode
  · rintro lo hi alts heq
    cases heq

end PathGlob.Node
