import Mathlib.Data.List.Forall2
import PathGlob.Proofs.Search.Expansion
import PathGlob.Proofs.Search.Questions

/-!
# Matching segment by segment

The separators of a pattern and those of a path meet one by one, if nothing but the pattern's own
separators goes over a separator of the path. Then the whole path matches exactly if it has as many
segments as the pattern has parts between its separators, and each part matches its segment.

Two facts about walks make this true. A walk within a segment cannot tell a separator behind the
segment from the end of the path, so it is the walk of the segment alone
(`sequenceEnds_of_withinSegment`). And a walk does not look back, so behind a separator it is the
walk of what is left of the path (`sequenceEnds_append_path`). Between the two a separator of the
pattern takes the one separator that stands at the end of the segment.
-/

namespace PathGlob

/-! ## Parts and segments -/

/-- The segments of a path: what stands before, between and behind its separators. -/
def Path.segments (path : Path) : List Path :=
  (path.toList.splitOnP isSeparator).map List.toArray

theorem splitOnP_cases {α : Type} (p : α → Bool) (l : List α) :
    ((∀ a ∈ l, p a = false) ∧ l.splitOnP p = [l]) ∨
      ∃ front a back, l = front ++ a :: back ∧ (∀ b ∈ front, p b = false) ∧ p a = true ∧
        l.splitOnP p = front :: back.splitOnP p := by
  rcases hfind : l.find? p with _ | a
  · have hnone : ∀ a ∈ l, p a = false := by simpa using hfind
    exact .inl ⟨hnone, List.splitOnP_eq_singleton hnone⟩
  · obtain ⟨ha, front, back, rfl, hfront⟩ := List.find?_eq_some_iff_append.mp hfind
    have hnone : ∀ b ∈ front, p b = false := by simpa using hfront
    refine .inr ⟨front, a, back, rfl, hnone, ha, ?_⟩
    rw [List.splitOnP_append_cons _ _ ha, List.splitOnP_eq_singleton hnone, List.singleton_append]

theorem Path.segments_ne_nil (path : Path) : path.segments ≠ [] := by
  rw [segments, ne_eq, List.map_eq_nil_iff]
  exact List.splitOnP_ne_nil _ _

theorem Path.not_hasSeparator_toArray {text : List Char} (h : ∀ r ∈ text, isSeparator r = false)
    (i : Nat) : Path.hasSeparator text.toArray i = false := by
  rw [hasSeparator, List.getElem?_toArray, Bool.eq_false_iff]
  intro hany
  obtain ⟨r, hr, hsep⟩ := (Option.any_eq_true _ _).mp hany
  exact Bool.false_ne_true ((h r (List.mem_of_getElem? hr)).symm.trans hsep)

theorem Path.segments_cases (path : Path) :
    ((∀ i, path.hasSeparator i = false) ∧ path.segments = [path]) ∨
      ∃ (segment more : Path) (r : Char), path = segment ++ #[r] ++ more ∧
        (∀ i, segment.hasSeparator i = false) ∧ isSeparator r = true ∧
        path.segments = segment :: more.segments := by
  obtain ⟨text⟩ := path
  rcases splitOnP_cases isSeparator text with
    ⟨hnone, hsplit⟩ | ⟨front, r, back, rfl, hfront, hr, hsplit⟩
  · left
    refine ⟨not_hasSeparator_toArray hnone, ?_⟩
    rw [segments, hsplit, List.map_singleton]
  · right
    refine ⟨front.toArray, back.toArray, r, by simp, not_hasSeparator_toArray hfront, hr, ?_⟩
    rw [segments, hsplit, List.map_cons, segments]

namespace Search

variable {path segment more : Path} {flags : Flags} {pos q : Nat} {nodes piece rest : List Node}

/-! ## Walks within a segment -/

theorem test_eq_false_of_withinSegment {node : Node} (h : node.WithinSegment) {test : Char → Bool}
    (ht : test ∈ node.tests) {r : Char} (hr : isSeparator r = true) : test r = false := by
  cases node with
  | slash | globstar | noneOf => exact h.elim
  | anyChar | anyText =>
    obtain rfl := List.mem_singleton.mp ht
    simp [hr]
  | literal runes =>
    obtain ⟨r', hr', rfl⟩ := List.mem_map.mp ht
    rw [beq_eq_false_iff_ne]
    rintro rfl
    exact Bool.false_ne_true ((h r hr').symm.trans hr)
  | range lo hi =>
    obtain rfl := List.mem_singleton.mp ht
    simpa using h r hr
  | oneOf => exact absurd ht List.not_mem_nil

/-- To nodes that go over no separator, a separator behind a segment is the end of the path. -/
theorem standsIn_of_withinSegment (hmore : more.hasText 0 = false) :
    segment.StandsIn Node.WithinSegment (segment ++ more) 0 where
  any_eq node hnode test ht pos hpos := by
    rw [Nat.zero_add]
    rcases Nat.lt_or_eq_of_le hpos with hlt | rfl
    · rw [Array.getElem?_append_left hlt]
    · rw [Array.getElem?_append_right (Nat.le_refl _), Nat.sub_self,
        Array.getElem?_eq_none (Nat.le_refl _), Option.any_none]
      rcases hr : more[0]? with _ | r
      · rfl
      · have hsep : isSeparator r = true := by simpa [Path.hasText, hr] using hmore
        exact test_eq_false_of_withinSegment hnode ht hsep
  size_eq node hnode hend := by
    cases node with
    | globstar | noneOf => exact hnode.elim
    | slash | anyChar | anyText | literal | range | oneOf => cases hend

theorem sequenceEnds_of_withinSegment (hpiece : Node.Everywhere Node.WithinSegment piece)
    (hmore : more.hasText 0 = false) :
    sequenceEnds (segment ++ more) flags piece 0 = sequenceEnds segment flags piece 0 := by
  have hends : sequenceEnds (segment ++ more) flags piece (0 + 0) = _ :=
    sequenceEnds_of_standsIn (standsIn_of_withinSegment hmore) hpiece (Nat.zero_le _)
  rwa [Nat.zero_add, End.shift_zero, List.map_id] at hends

/-! ## Walks behind a separator -/

/-- A walk does not look back. -/
theorem sequenceEnds_append_path (before path : Path) (nodes : List Node) :
    sequenceEnds (before ++ path) flags nodes before.size =
      (sequenceEnds path flags nodes 0).map (End.shift before.size) := by
  have hstands : path.StandsIn (fun _ ↦ True) (before ++ path) before.size := by
    constructor
    · intro node _ test _ pos _
      rw [Array.getElem?_append_right (Nat.le_add_right _ _), Nat.add_sub_cancel_left]
    · intro node _ _
      exact Array.size_append
  exact sequenceEnds_of_standsIn hstands
    (everywhere_of_negationDepth_le (fun _ _ ↦ trivial) (Nat.le_refl _)) (Nat.zero_le _)

theorem reached_mem_map_shift {es : List End} {start : Nat} :
    .reached (start + q) ∈ es.map (End.shift start) ↔ .reached q ∈ es := by
  rw [List.mem_map]
  constructor
  · rintro ⟨p | p, he, heq⟩
    · obtain rfl : p = q := by simpa [End.shift] using heq
      exact he
    · exact End.noConfusion heq
  · intro hq
    exact ⟨_, hq, rfl⟩

theorem reached_mem_sequenceEnds_slash :
    .reached q ∈ sequenceEnds path flags (.slash :: rest) pos ↔
      path.hasSeparator pos = true ∧ .reached q ∈ sequenceEnds path flags rest (pos + 1) := by
  rw [reached_mem_sequenceEnds_cons]
  simp only [nodeEnds, List.mem_ite_nil_right, List.mem_singleton, End.reached.injEq]
  constructor
  · rintro ⟨p, ⟨hsep, rfl⟩, hrest⟩
    exact ⟨hsep, hrest⟩
  · rintro ⟨hsep, hrest⟩
    exact ⟨_, ⟨hsep, rfl⟩, hrest⟩

/-! ## Segment by segment -/

theorem reached_notMem_of_not_hasSeparator (hpath : ∀ i, path.hasSeparator i = false) :
    .reached q ∉ sequenceEnds path flags (piece ++ .slash :: rest) pos := by
  rw [reached_mem_sequenceEnds_append]
  rintro ⟨p, -, hrest⟩
  obtain ⟨hsep, -⟩ := reached_mem_sequenceEnds_slash.mp hrest
  exact Bool.false_ne_true ((hpath p).symm.trans hsep)

section Separator

variable {r : Char} (hr : isSeparator r = true)
  (hpiece : Node.Everywhere Node.WithinSegment piece)

include hr hpiece

theorem sequenceEnds_before_separator :
    sequenceEnds (segment ++ #[r] ++ more) flags piece 0 = sequenceEnds segment flags piece 0 := by
  have hfirst : (#[r] ++ more)[0]? = some r := Array.getElem?_append_left Nat.one_pos
  rw [Array.append_assoc]
  apply sequenceEnds_of_withinSegment hpiece
  rw [Path.hasText, hfirst, Option.any_some, hr, Bool.not_true]

theorem reached_size_notMem_of_separator :
    .reached (segment ++ #[r] ++ more).size ∉
      sequenceEnds (segment ++ #[r] ++ more) flags piece 0 := by
  rw [sequenceEnds_before_separator hr hpiece]
  intro hmem
  have hle := (le_pos_of_mem_sequenceEnds (Nat.zero_le _) hmem).2
  simp [End.pos] at hle
  omega

/-- The first separator of the pattern takes the first one of the path: what comes before the one
walks what comes before the other, and what comes behind walks what comes behind. -/
theorem reached_size_mem_of_separator (hsegment : ∀ i, segment.hasSeparator i = false) :
    .reached (segment ++ #[r] ++ more).size ∈
        sequenceEnds (segment ++ #[r] ++ more) flags (piece ++ .slash :: rest) 0 ↔
      .reached segment.size ∈ sequenceEnds segment flags piece 0 ∧
        .reached more.size ∈ sequenceEnds more flags rest 0 := by
  have hbehind : .reached (segment ++ #[r] ++ more).size ∈
      sequenceEnds (segment ++ #[r] ++ more) flags rest (segment.size + 1) ↔
        .reached more.size ∈ sequenceEnds more flags rest 0 := by
    have hends : sequenceEnds (segment ++ #[r] ++ more) flags rest (segment.size + 1) =
        (sequenceEnds more flags rest 0).map (End.shift (segment.size + 1)) := by
      have hsize : (segment ++ #[r]).size = segment.size + 1 := Array.size_append
      rw [← hsize]
      exact sequenceEnds_append_path _ _ _
    have htotal : (segment ++ #[r] ++ more).size = segment.size + 1 + more.size := by
      rw [Array.size_append, Array.size_append]
      rfl
    rw [hends, htotal, reached_mem_map_shift]
  have hsep : (segment ++ #[r] ++ more).hasSeparator segment.size = true := by
    have hrune : (segment ++ #[r] ++ more)[segment.size]? = some r := by
      rw [Array.append_assoc, Array.getElem?_append_right (Nat.le_refl _), Nat.sub_self]
      exact Array.getElem?_append_left Nat.one_pos
    rw [Path.hasSeparator, hrune, Option.any_some, hr]
  rw [reached_mem_sequenceEnds_append, sequenceEnds_before_separator hr hpiece, ← hbehind]
  constructor
  · rintro ⟨p, hp, hrest⟩
    obtain ⟨hseparator, hrest⟩ := reached_mem_sequenceEnds_slash.mp hrest
    -- within the segment there is no separator, so the walk has come to its end
    have hle : p ≤ segment.size := (le_pos_of_mem_sequenceEnds (Nat.zero_le _) hp).2
    obtain rfl : p = segment.size := by
      by_contra hne
      have hlt : p < segment.size := Nat.lt_of_le_of_ne hle hne
      rw [Path.hasSeparator, Array.append_assoc, Array.getElem?_append_left hlt] at hseparator
      exact Bool.false_ne_true ((hsegment p).symm.trans hseparator)
    exact ⟨hp, hrest⟩
  · rintro ⟨hp, hrest⟩
    exact ⟨_, hp, reached_mem_sequenceEnds_slash.mpr ⟨hsep, hrest⟩⟩

end Separator

theorem accepts_iff_reached_size_of_withinSegment (hfull : flags.has .fullMatch = true)
    (hnodes : ∀ node ∈ nodes, node = .slash ∨ node.Throughout Node.WithinSegment) :
    accepts path flags nodes = true ↔ .reached path.size ∈ sequenceEnds path flags nodes 0 := by
  apply accepts_iff_reached_size_of_not_stopped hfull
  intro p hp
  obtain ⟨-, alts, halts⟩ := of_stopped_mem_sequenceEnds hp
  rcases hnodes _ halts with hslash | hwithin
  · exact Node.noConfusion hslash
  · exact hwithin.1

theorem everywhere_withinSegment
    (hnodes : ∀ node ∈ nodes, node = .slash ∨ node.Throughout Node.WithinSegment)
    (hslash : ∀ node ∈ nodes, (node == .slash) = false) :
    Node.Everywhere Node.WithinSegment nodes := by
  rw [Node.everywhere_iff]
  intro node hnode
  apply (hnodes node hnode).resolve_left
  rintro rfl
  exact Bool.false_ne_true ((hslash _ hnode).symm.trans (beq_self_eq_true _))

/-- **Segment by segment.** Let no node of a sequence go over a separator but the separators at top
level. As a whole, such a sequence matches a path exactly if it has as many parts between its
separators as the path has segments, and each part matches its segment. The induction takes the
first separator off the sequence and off the path. -/
theorem accepts_iff_segments (hfull : flags.has .fullMatch = true) (nodes : List Node)
    (hnodes : ∀ node ∈ nodes, node = .slash ∨ node.Throughout Node.WithinSegment) (path : Path) :
    accepts path flags nodes = true ↔
      List.Forall₂ (fun piece segment ↦ accepts segment flags piece = true)
        (nodes.splitOn .slash) path.segments := by
  rw [List.splitOn_eq_splitOnP]
  rcases splitOnP_cases (· == .slash) nodes with
    ⟨hslash, hsplit⟩ | ⟨piece, node, rest, rfl, hslash, hnode, hsplit⟩
  · rcases path.segments_cases with ⟨-, hsegments⟩ | ⟨segment, more, r, rfl, -, hr, hsegments⟩
    · rw [hsplit, hsegments, List.forall₂_cons, and_iff_left List.Forall₂.nil]
    · -- one part for two segments or more
      obtain ⟨next, others, hmore⟩ := List.exists_cons_of_ne_nil more.segments_ne_nil
      rw [hsplit, hsegments, hmore, accepts_iff_reached_size_of_withinSegment hfull hnodes]
      apply iff_of_false
      · exact reached_size_notMem_of_separator hr (everywhere_withinSegment hnodes hslash)
      · simp
  · obtain rfl : node = .slash := eq_of_beq hnode
    have hpiece : ∀ node ∈ piece, node = .slash ∨ node.Throughout Node.WithinSegment :=
      fun node hmem ↦ hnodes node (List.mem_append_left _ hmem)
    have hrest : ∀ node ∈ rest, node = .slash ∨ node.Throughout Node.WithinSegment :=
      fun node hmem ↦ hnodes node (List.mem_append_right _ (List.mem_cons_of_mem _ hmem))
    rw [accepts_iff_reached_size_of_withinSegment hfull hnodes]
    rcases path.segments_cases with
      ⟨hnone, hsegments⟩ | ⟨segment, more, r, rfl, hsegment, hr, hsegments⟩
    · -- two parts or more for one segment
      obtain ⟨next, others, hmore⟩ :=
        List.exists_cons_of_ne_nil (List.splitOnP_ne_nil (· == Node.slash) rest)
      rw [hsplit, hsegments, hmore]
      apply iff_of_false
      · exact reached_notMem_of_not_hasSeparator hnone
      · simp
    · rw [hsplit, hsegments, List.forall₂_cons, ← List.splitOn_eq_splitOnP,
        ← accepts_iff_segments hfull rest hrest more,
        accepts_iff_reached_size_of_withinSegment hfull hpiece,
        accepts_iff_reached_size_of_withinSegment hfull hrest]
      exact reached_size_mem_of_separator hr (everywhere_withinSegment hpiece hslash) hsegment
termination_by nodes.length

/-- A group, a star and a single rune match the three segments of a path, the second of which is
empty. -/
theorem accepts_iff_segments_three :
    let flags : Flags := (Flags.empty.insert .fullMatch).insert .legacyNegation
    let group : Node := .oneOf [[.literal ['a'], .anyText], [.oneOf [[.range 'x' 'z']]]]
    let nodes : List Node := [group, .slash, .anyText, .slash, .anyChar]
    let path : Path := #['a', 'b', '\\', '/', 'c']
    flags.has .fullMatch = true ∧
      (∀ node ∈ nodes, node = .slash ∨ node.Throughout Node.WithinSegment) ∧
      accepts path flags nodes = true ∧
      (accepts path flags nodes = true ↔
        List.Forall₂ (fun piece segment ↦ accepts segment flags piece = true)
          [[group], [.anyText], [.anyChar]] [#['a', 'b'], #[], #['c']]) ∧
      List.Forall₂ (fun piece segment ↦ accepts segment flags piece = true)
        [[group], [.anyText], [.anyChar]] [#['a', 'b'], #[], #['c']] := by
  intro flags group nodes path
  have hliteral : Node.WithinSegment (.literal ['a']) := by
    intro r hr
    obtain rfl := List.mem_singleton.mp hr
    rfl
  have hrange : Node.WithinSegment (.range 'x' 'z') := by
    intro r hr
    rcases isSeparator_iff.mp hr with rfl | rfl <;> decide
  have hgroup : group.Throughout Node.WithinSegment :=
    ⟨trivial, ⟨hliteral, trivial, trivial⟩, ⟨⟨trivial, ⟨hrange, trivial⟩, trivial⟩, trivial⟩,
      trivial⟩
  have hnodes : ∀ node ∈ nodes, node = .slash ∨ node.Throughout Node.WithinSegment := by
    simp [nodes, hgroup, Node.Throughout, Node.WithinSegment]
  have hends : sequenceEnds path flags nodes 0 = [.reached 5] := by cbv
  have hmatch : accepts path flags nodes = true :=
    accepts_of_sequenceEnds_eq hends (by decide)
  have hfull : flags.has .fullMatch = true := by decide
  have hiff := accepts_iff_segments hfull nodes hnodes path
  exact ⟨hfull, hnodes, hmatch, hiff, hiff.mp hmatch⟩

end Search

end PathGlob
