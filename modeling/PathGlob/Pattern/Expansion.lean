import PathGlob.Pattern

/-!
# Brace expansion

A plain group stands for each of its alternatives, so a sequence with groups stands for a list of
sequences without any: its expansions. Negated groups are kept as they are, since what they exclude
is not a choice. A sequence without plain groups has itself as its only expansion, and one that
holds a group without alternatives has none.
-/

namespace PathGlob.Node

mutual

/-- The sequences that a node stands for. -/
def expansions : Node → List (List Node)
  | .oneOf alts => alternativesExpansions alts
  | node => [[node]]

/-- The sequences that a sequence stands for, with an expansion of each node in its place. -/
def sequenceExpansions : List Node → List (List Node)
  | [] => [[]]
  | node :: rest =>
    (expansions node).flatMap fun left ↦ (sequenceExpansions rest).map (left ++ ·)

/-- The sequences that the alternatives of a group stand for. -/
def alternativesExpansions : List (List Node) → List (List Node)
  | [] => []
  | alt :: alts => sequenceExpansions alt ++ alternativesExpansions alts

end

theorem mem_sequenceExpansions_cons {node : Node} {rest nodes : List Node} :
    nodes ∈ sequenceExpansions (node :: rest) ↔
      ∃ left ∈ expansions node, ∃ right ∈ sequenceExpansions rest, nodes = left ++ right := by
  simp [sequenceExpansions, eq_comm]

theorem mem_expansions_oneOf {alts : List (List Node)} {nodes : List Node} :
    nodes ∈ expansions (.oneOf alts) ↔ ∃ alt ∈ alts, nodes ∈ sequenceExpansions alt := by
  rw [expansions]
  induction alts with
  | nil => simp [alternativesExpansions]
  | cons alt alts ih => simp [alternativesExpansions, ih]

mutual

theorem oneOf_notMem_of_mem_expansions : ∀ {node : Node} {nodes : List Node}
    {alts : List (List Node)}, nodes ∈ expansions node → .oneOf alts ∉ nodes
  | .oneOf _, _, _, h => by
    rw [expansions] at h
    exact oneOf_notMem_of_mem_alternativesExpansions h
  | .slash, _, _, h | .globstar, _, _, h | .anyChar, _, _, h | .anyText, _, _, h
  | .literal _, _, _, h | .range _ _, _, _, h | .noneOf _, _, _, h => by
    simp only [expansions, List.mem_singleton] at h
    simp [h]

/-- No expansion of a sequence holds a plain group. -/
theorem oneOf_notMem_of_mem_sequenceExpansions : ∀ {rest nodes : List Node}
    {alts : List (List Node)}, nodes ∈ sequenceExpansions rest → .oneOf alts ∉ nodes
  | [], _, _, h => by
    rw [sequenceExpansions, List.mem_singleton] at h
    simp [h]
  | node :: rest, _, _, h => by
    obtain ⟨left, hleft, right, hright, rfl⟩ := mem_sequenceExpansions_cons.mp h
    rw [List.mem_append, not_or]
    exact ⟨oneOf_notMem_of_mem_expansions hleft, oneOf_notMem_of_mem_sequenceExpansions hright⟩

theorem oneOf_notMem_of_mem_alternativesExpansions : ∀ {rest : List (List Node)}
    {nodes : List Node} {alts : List (List Node)},
    nodes ∈ alternativesExpansions rest → .oneOf alts ∉ nodes
  | [], _, _, h => by
    rw [alternativesExpansions] at h
    exact absurd h List.not_mem_nil
  | alt :: rest, _, _, h => by
    rw [alternativesExpansions, List.mem_append] at h
    rcases h with halt | hrest
    · exact oneOf_notMem_of_mem_sequenceExpansions halt
    · exact oneOf_notMem_of_mem_alternativesExpansions hrest

end

end PathGlob.Node
