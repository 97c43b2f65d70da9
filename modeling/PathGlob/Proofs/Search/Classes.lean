import PathGlob.Pattern.Everywhere
import PathGlob.Proofs.Search.Ends

/-!
# Walking classes

A class is walked like any other group, member by member. But every member takes one rune or none,
so all ends of a class are the same, and which member it was does not show. A class therefore means
the set of the runes that its members cover, and it loses nothing by committing: in a sequence whose
groups are all classes it does not matter whether groups commit.

With classes understood as sets, all nodes but literals and the two wildcards that repeat are of one
kind: they take the rune at hand or they do not (`Node.takes`).
-/

namespace PathGlob

/-! ## The runes of a class -/

/-- Whether a member of a class covers a rune. -/
def Node.memberCovers : List Node → Char → Bool
  | [.literal [r']], r => r == r'
  | [.range lo hi], r => lo ≤ r && r ≤ hi
  | _, _ => false

/-- Whether a member of a class covers a rune, for any of its members. -/
def Node.covers (alts : List (List Node)) (r : Char) : Bool :=
  alts.any fun alt ↦ memberCovers alt r

/-- Whether a node takes a rune, for the nodes that take one rune at a time. The groups among them
are the classes. -/
def Node.takes : Node → Char → Bool
  | .slash, r => isSeparator r
  | .anyChar, r => !isSeparator r
  | .range lo hi, r => lo ≤ r && r ≤ hi
  | .oneOf alts, r => covers alts r
  | .noneOf alts, r => !covers alts r
  | _, _ => false

/-- Whether a node takes one rune at a time. -/
def Node.isRuneWise : Node → Bool
  | .literal _ | .globstar | .anyText => false
  | _ => true

/-- Whether a rune that a class covers stands at a position. -/
def Path.hasMember (path : Path) (pos : Nat) (alts : List (List Node)) : Bool :=
  path[pos]?.any (Node.covers alts)

namespace Search

variable {path : Path} {flags : Flags} {alts : List (List Node)} {pos : Nat} {e : End}

/-! ## Ends -/

theorem mem_sequenceEnds_member {alt : List Node}
    (h : (∃ r, alt = [.literal [r]]) ∨ ∃ lo hi, alt = [.range lo hi]) :
    e ∈ sequenceEnds path flags alt pos ↔
      path[pos]?.any (Node.memberCovers alt) = true ∧ e = .reached (pos + 1) := by
  rcases h with ⟨r, rfl⟩ | ⟨lo, hi, rfl⟩
  · have hspells : path.spells pos [r] = path[pos]?.any (Node.memberCovers [.literal [r]]) := by
      cases hrune : path[pos]? <;> simp [Path.spells, Node.memberCovers, hrune]
    rw [sequenceEnds_singleton, nodeEnds, hspells, List.mem_ite_nil_right, List.mem_singleton]
    rfl
  · rw [sequenceEnds_singleton, nodeEnds, List.mem_ite_nil_right, List.mem_singleton]
    rfl

theorem mem_alternativesEnds_class (h : Node.ClassOnly (.oneOf alts)) :
    e ∈ alternativesEnds path flags alts pos ↔
      path.hasMember pos alts = true ∧ e = .reached (pos + 1) := by
  have hmembers : path.hasMember pos alts = true ↔
      ∃ alt ∈ alts, path[pos]?.any (Node.memberCovers alt) = true := by
    cases hrune : path[pos]? <;> simp [Path.hasMember, Node.covers, hrune]
  rw [mem_alternativesEnds, hmembers]
  constructor
  · rintro ⟨alt, halt, e', he', rfl⟩
    obtain ⟨hcovers, rfl⟩ := (mem_sequenceEnds_member (h alt halt)).mp he'
    exact ⟨⟨alt, halt, hcovers⟩, rfl⟩
  · rintro ⟨⟨alt, halt, hcovers⟩, rfl⟩
    exact ⟨alt, halt, _, (mem_sequenceEnds_member (h alt halt)).mpr ⟨hcovers, rfl⟩, rfl⟩

/-- All ends of a class are the same, so the first of them stands for all. -/
theorem mem_nodeEnds_class (h : Node.ClassOnly (.oneOf alts)) :
    e ∈ nodeEnds path flags (.oneOf alts) pos ↔
      path.hasMember pos alts = true ∧ e = .reached (pos + 1) := by
  rw [nodeEnds]
  split
  · exact mem_alternativesEnds_class h
  · rw [← @mem_alternativesEnds_class path flags alts pos e h]
    have hall : ∀ e' ∈ alternativesEnds path flags alts pos, e' = .reached (pos + 1) := by
      intro e' he'
      exact ((mem_alternativesEnds_class h).mp he').2
    cases hends : alternativesEnds path flags alts pos with
    | nil => rw [List.take_nil]
    | cons first others =>
      rw [hends] at hall
      have hfirst : first = .reached (pos + 1) := hall first List.mem_cons_self
      rw [List.take_succ_cons, List.take_zero, List.mem_singleton, hfirst]
      constructor
      · rintro rfl
        exact List.mem_cons_self
      · intro he
        exact hall e (hfirst ▸ he)

theorem alternativesEnds_bne_nil_class (h : Node.ClassOnly (.oneOf alts)) :
    (alternativesEnds path flags alts pos != []) = path.hasMember pos alts := by
  rw [Bool.eq_iff_iff, bne_iff_ne, ne_eq, List.eq_nil_iff_forall_not_mem, Classical.not_forall_not]
  simp only [mem_alternativesEnds_class h]
  exact ⟨fun ⟨_, hmember, _⟩ ↦ hmember, fun hmember ↦ ⟨_, hmember, rfl⟩⟩

theorem nodeEnds_negatedClass (h : Node.ClassOnly (.noneOf alts)) :
    nodeEnds path flags (.noneOf alts) pos =
      if path.hasMember pos alts then []
      else if flags.has .legacyNegation then [.stopped pos]
      else if pos < path.size then [.reached (pos + 1)]
      else [] := by
  rw [nodeEnds, alternativesEnds_bne_nil_class (show Node.ClassOnly (.oneOf alts) from h)]

theorem reached_mem_nodeEnds_of_isRuneWise {node : Node} {q : Nat}
    (hnegation : flags.has .legacyNegation = false) (h : Node.ClassOnly node)
    (hnode : node.isRuneWise = true) :
    .reached q ∈ nodeEnds path flags node pos ↔
      path[pos]?.any node.takes = true ∧ q = pos + 1 := by
  cases node with
  | literal | globstar | anyText => cases hnode
  | slash | anyChar | range =>
    rw [nodeEnds, List.mem_ite_nil_right, List.mem_singleton, End.reached.injEq]
    rfl
  | oneOf alts =>
    rw [mem_nodeEnds_class h, End.reached.injEq]
    rfl
  | noneOf alts =>
    rw [nodeEnds_negatedClass h, hnegation, Path.hasMember]
    by_cases hpos : pos < path.size
    · rw [Array.getElem?_eq_getElem hpos, if_pos hpos]
      cases hcovers : Node.covers alts path[pos] <;> simp [Node.takes, hcovers]
    · rw [Array.getElem?_eq_none (Nat.le_of_not_lt hpos), if_neg hpos]
      simp

/-! ## Classes do not commit -/

section Congr

variable {flags' : Flags} (hglobstar : flags'.has .legacyGlobstar = flags.has .legacyGlobstar)
  (hnegation : flags'.has .legacyNegation = flags.has .legacyNegation)

include hglobstar hnegation

theorem mem_nodeEnds_congr_of_classOnly {node : Node} (h : Node.ClassOnly node) :
    e ∈ nodeEnds path flags' node pos ↔ e ∈ nodeEnds path flags node pos := by
  cases node with
  | oneOf alts => rw [mem_nodeEnds_class h, mem_nodeEnds_class h]
  | noneOf alts => rw [nodeEnds_negatedClass h, nodeEnds_negatedClass h, hnegation]
  | globstar => rw [nodeEnds, nodeEnds, hglobstar]
  | slash | anyChar | anyText | literal | range => rw [nodeEnds, nodeEnds]

/-- If all groups of a sequence are classes, then whether groups commit does not matter for its
ends. -/
theorem mem_sequenceEnds_congr_of_classOnly {nodes : List Node}
    (h : Node.Everywhere Node.ClassOnly nodes) :
    e ∈ sequenceEnds path flags' nodes pos ↔ e ∈ sequenceEnds path flags nodes pos := by
  induction nodes generalizing pos with
  | nil => rw [sequenceEnds_nil, sequenceEnds_nil]
  | cons node rest ih =>
    have hnode : ∀ mid, mid ∈ nodeEnds path flags' node pos ↔ mid ∈ nodeEnds path flags node pos :=
      fun mid ↦ mem_nodeEnds_congr_of_classOnly hglobstar hnegation h.1.self
    have hrest : ∀ mid : End, e ∈ mid.goOn (sequenceEnds path flags' rest) ↔
        e ∈ mid.goOn (sequenceEnds path flags rest) := by
      intro mid
      cases mid with
      | reached p => exact ih h.2
      | stopped p => exact Iff.rfl
    simp only [sequenceEnds_cons, List.mem_flatMap, hnode, hrest]

end Congr

end Search

end PathGlob
