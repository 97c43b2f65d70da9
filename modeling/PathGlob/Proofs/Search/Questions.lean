import Mathlib.Data.List.Basic
import PathGlob.Pattern.Everywhere
import PathGlob.Proofs.Search.Decision
import PathGlob.Proofs.Search.Ends

/-!
# What a walk asks of a path

A walk knows nothing of a path but the answers to its questions. Most nodes put a question to the
rune at hand, a literal to one rune after the other, and the answer says whether the walk goes on
over this rune. Behind the last rune every answer is no. Only a double star and a negated group have
a second question: where the path ends.

So if the nodes of a pattern get the same answers from two paths, then the paths are walked in the
same way. The two need not begin at the same place. A path may stand in a longer one from some
position on (`Path.StandsIn`), and then its walks are the walks of the longer path from there, with
all positions moved (`sequenceEnds_of_standsIn`). What counts as the same answer is left to the
nodes, so that a path may even stand where other runes do, if the nodes at hand cannot tell them
apart. That is how the two separators come to mean the same.
-/

namespace PathGlob

/-! ## Questions -/

/-- What a node asks of a rune before it goes over it. Groups leave this to their alternatives. -/
def Node.tests : Node → List (Char → Bool)
  | .slash | .globstar => [isSeparator]
  | .anyChar | .anyText => [fun r ↦ !isSeparator r]
  | .literal runes => runes.map fun r r' ↦ r' == r
  | .range lo hi => [fun r ↦ lo ≤ r && r ≤ hi]
  | .oneOf _ | .noneOf _ => []

/-- Whether a node asks where the path ends. -/
def Node.asksForEnd : Node → Bool
  | .globstar | .noneOf _ => true
  | _ => false

/-- As far as nodes of a kind can tell, a path stands in another from a position on. -/
structure Path.StandsIn (P : Node → Prop) (path whole : Path) (start : Nat) : Prop where
  /-- What a node asks of a rune is answered in the same way, also behind the last rune. -/
  any_eq : ∀ node, P node → ∀ test ∈ node.tests, ∀ pos ≤ path.size,
    whole[start + pos]?.any test = path[pos]?.any test
  /-- If a node asks for it, the paths have the same end. -/
  size_eq : ∀ node, P node → node.asksForEnd = true → whole.size = start + path.size

/-- An end of a walk, with its position moved. -/
def Search.End.shift (start : Nat) : End → End
  | .reached pos => .reached (start + pos)
  | .stopped pos => .stopped (start + pos)

namespace Path

variable {path whole : Path} {start pos : Nat}

/-! ## Places of a wildcard -/

theorem spells_of_any_eq {runes : List Char}
    (h : ∀ r ∈ runes, ∀ pos ≤ path.size, whole[start + pos]?.any (· == r) = path[pos]?.any (· == r))
    (hpos : pos ≤ path.size) : whole.spells (start + pos) runes = path.spells pos runes := by
  have hrune : ∀ (path : Path) (pos : Nat) (r : Char),
      (path[pos]? == some r) = path[pos]?.any (· == r) := by
    intro path pos r
    rcases path[pos]? with _ | r' <;> rfl
  induction runes generalizing pos with
  | nil => rfl
  | cons r runes ih =>
    rw [spells, spells, hrune, hrune, h r List.mem_cons_self pos hpos]
    rcases hfirst : path[pos]?.any (· == r)
    · rw [Bool.false_and, Bool.false_and]
    · rw [Nat.add_assoc, ih (fun r' hr' ↦ h r' (List.mem_cons_of_mem _ hr'))
        (lt_size_of_any hfirst)]

theorem segmentRest_of_hasText_eq
    (h : ∀ pos ≤ path.size, whole.hasText (start + pos) = path.hasText pos)
    (hpos : pos ≤ path.size) :
    whole.segmentRest (start + pos) = (path.segmentRest pos).map (start + ·) := by
  fun_induction segmentRest path pos with
  | case1 pos htext ih =>
    rw [segmentRest, if_pos ((h pos hpos).trans htext), Nat.add_assoc,
      ih (lt_size_of_hasText htext), List.map_cons]
  | case2 pos htext =>
    rw [segmentRest, if_neg (by rwa [h pos hpos]), List.map_singleton]

section Separators

variable (hsep : ∀ pos ≤ path.size, whole.hasSeparator (start + pos) = path.hasSeparator pos)
  (hsize : whole.size = start + path.size)

include hsep hsize

theorem separatorsFrom_of_hasSeparator_eq (pos : Nat) :
    whole.separatorsFrom (start + pos) = (path.separatorsFrom pos).map (start + ·) := by
  have hlength : whole.size - (start + pos) = path.size - pos := by omega
  rw [separatorsFrom, separatorsFrom, hlength, ← List.map_add_range', List.filter_map]
  congr 1
  apply List.filter_congr
  intro i hi
  rw [List.mem_range'_1] at hi
  exact hsep i (by omega)

theorem globstarPlaces_of_hasSeparator_eq (pos : Nat) :
    whole.globstarPlaces (start + pos) = (path.globstarPlaces pos).map (start + ·) := by
  rw [globstarPlaces, globstarPlaces, Nat.add_assoc,
    separatorsFrom_of_hasSeparator_eq hsep hsize, List.map_cons]

theorem legacyGlobstarPlaces_of_hasSeparator_eq (pos : Nat) :
    whole.legacyGlobstarPlaces (start + pos) = (path.legacyGlobstarPlaces pos).map (start + ·) := by
  rw [legacyGlobstarPlaces, legacyGlobstarPlaces, separatorsFrom_of_hasSeparator_eq hsep hsize,
    List.getLast?_map]
  rcases (path.separatorsFrom pos).getLast? with _ | last
  · rfl
  · rw [Option.map_some, List.map_append, List.map_singleton]

end Separators

end Path

namespace Search

variable {P : Node → Prop} {path whole : Path} {start : Nat}

/-! ## Walks -/

theorem End.shift_zero : End.shift 0 = id := by
  funext e
  rcases e with pos | pos <;> simp [End.shift]

theorem End.shift_leave (e : End) : (e.shift start).leave = e.leave.shift start := by
  rcases e with pos | pos <;> rfl

theorem shift_stepOver {c c' : Bool} (h : c' = c) (pos n : Nat) :
    (if c' then [End.reached (start + pos + n)] else []) =
      (if c then [End.reached (pos + n)] else []).map (End.shift start) := by
  rw [h]
  split
  · rw [List.map_singleton, End.shift, Nat.add_assoc]
  · rfl

mutual

theorem nodeEnds_of_standsIn (h : path.StandsIn P whole start) :
    ∀ {node : Node} {flags : Flags} {pos : Nat}, node.Throughout P → pos ≤ path.size →
      nodeEnds whole flags node (start + pos) =
        (nodeEnds path flags node pos).map (End.shift start)
  | .slash, flags, pos, hnode, hpos | .anyChar, flags, pos, hnode, hpos
  | .range _ _, flags, pos, hnode, hpos => by
    rw [nodeEnds, nodeEnds]
    exact shift_stepOver (h.any_eq _ hnode _ List.mem_cons_self pos hpos) pos 1
  | .literal runes, flags, pos, hnode, hpos => by
    rw [nodeEnds, nodeEnds]
    apply shift_stepOver
    refine Path.spells_of_any_eq ?_ hpos
    intro r hr
    exact h.any_eq _ hnode _ (List.mem_map_of_mem hr)
  | .anyText, flags, pos, hnode, hpos => by
    have htext := h.any_eq _ hnode _ List.mem_cons_self
    rw [nodeEnds, nodeEnds, Path.segmentRest_of_hasText_eq htext hpos, List.map_map, List.map_map]
    rfl
  | .globstar, flags, pos, hnode, hpos => by
    have hsep := h.any_eq _ hnode _ List.mem_cons_self
    have hsize := h.size_eq _ hnode rfl
    rw [nodeEnds, nodeEnds, Path.legacyGlobstarPlaces_of_hasSeparator_eq hsep hsize,
      Path.globstarPlaces_of_hasSeparator_eq hsep hsize, ← apply_ite (List.map _), List.map_map,
      List.map_map]
    rfl
  | .oneOf alts, flags, pos, hnode, hpos => by
    rw [nodeEnds, nodeEnds, alternativesEnds_of_standsIn h hnode.2 hpos, ← List.map_take,
      ← apply_ite (List.map _)]
  | .noneOf alts, flags, pos, hnode, hpos => by
    have hsize := h.size_eq _ hnode.1 rfl
    have hlt : (start + pos < whole.size) = (pos < path.size) := by
      rw [hsize, Nat.add_lt_add_iff_left]
    have hempty : ∀ es : List End, (es.map (End.shift start) != []) = (es != []) := by
      intro es
      rcases es with _ | ⟨e, es⟩ <;> rfl
    rw [nodeEnds, nodeEnds, alternativesEnds_of_standsIn h hnode.2 hpos, hempty]
    simp only [hlt, apply_ite (List.map (End.shift start)), List.map_nil, List.map_singleton,
      End.shift, Nat.add_assoc]

/-- **Walks of a path that stands in another** are walks of the other one from there on. -/
theorem sequenceEnds_of_standsIn (h : path.StandsIn P whole start) :
    ∀ {nodes : List Node} {flags : Flags} {pos : Nat}, Node.Everywhere P nodes → pos ≤ path.size →
      sequenceEnds whole flags nodes (start + pos) =
        (sequenceEnds path flags nodes pos).map (End.shift start)
  | [], _, _, _, _ => by
    rw [sequenceEnds_nil, sequenceEnds_nil, List.map_singleton, End.shift]
  | node :: rest, flags, pos, hnodes, hpos => by
    rw [sequenceEnds_cons, sequenceEnds_cons, nodeEnds_of_standsIn h hnodes.1 hpos,
      List.flatMap_map, List.map_flatMap]
    -- the walk of the rest begins where that of the node ended, which is in the path
    apply List.flatMap_congr
    intro e he
    have hend := (le_pos_of_mem_nodeEnds hpos he).2
    rcases e with p | p
    · exact sequenceEnds_of_standsIn h hnodes.2 hend
    · rfl

theorem alternativesEnds_of_standsIn (h : path.StandsIn P whole start) :
    ∀ {alts : List (List Node)} {flags : Flags} {pos : Nat}, Node.EverywhereIn P alts →
      pos ≤ path.size → alternativesEnds whole flags alts (start + pos) =
        (alternativesEnds path flags alts pos).map (End.shift start)
  | [], _, _, _, _ => by
    rw [alternativesEnds, alternativesEnds, List.map_nil]
  | alt :: alts, flags, pos, halts, hpos => by
    rw [alternativesEnds, alternativesEnds, sequenceEnds_of_standsIn h halts.1 hpos,
      alternativesEnds_of_standsIn h halts.2 hpos, List.map_append, List.map_map, List.map_map,
      Function.comp_def, Function.comp_def]
    simp only [End.shift_leave]

end

theorem End.isMatch_of_size_eq {flags : Flags} (hsize : whole.size = path.size) (e : End) :
    e.isMatch whole flags = e.isMatch path flags := by
  rcases e with pos | pos
  · rw [isMatch, isMatch, hsize]
  · rfl

theorem accepts_eq_of_standsIn {nodes : List Node} (h : path.StandsIn P whole 0)
    (hsize : whole.size = path.size) (hnodes : Node.Everywhere P nodes) (flags : Flags) :
    accepts whole flags nodes = accepts path flags nodes := by
  have hends : sequenceEnds whole flags nodes (0 + 0) = _ :=
    sequenceEnds_of_standsIn h hnodes (Nat.zero_le _)
  rw [Nat.zero_add, End.shift_zero, List.map_id] at hends
  rw [Bool.eq_iff_iff, accepts_iff, accepts_iff, hends]
  simp only [End.isMatch_of_size_eq hsize]

end Search

/-! ## The two separators -/

/-- Whatever a node asks that does not tell the separators apart, it gets the same answer from
both. -/
theorem Node.SeparatorBlind.test_eq {node : Node} (h : node.SeparatorBlind) {test : Char → Bool}
    (ht : test ∈ node.tests) {r r' : Char} (hr : isSeparator r = true)
    (hr' : isSeparator r' = true) : test r = test r' := by
  have hboth : test '/' = test '\\' := by
    cases node with
    | slash | globstar | anyChar | anyText =>
      obtain rfl := List.mem_singleton.mp ht
      rfl
    | literal runes =>
      obtain ⟨r, hr, rfl⟩ := List.mem_map.mp ht
      have hother : ∀ separator, isSeparator separator = true → (separator == r) = false := by
        intro separator hseparator
        rw [beq_eq_false_iff_ne]
        rintro rfl
        exact Bool.false_ne_true ((h _ hr).symm.trans hseparator)
      exact (hother '/' rfl).trans (hother '\\' rfl).symm
    | range lo hi =>
      obtain rfl := List.mem_singleton.mp ht
      rw [Bool.eq_iff_iff]
      simp only [Bool.and_eq_true, decide_eq_true_iff]
      exact h
    | oneOf | noneOf => exact absurd ht List.not_mem_nil
  rcases isSeparator_iff.mp hr with rfl | rfl <;> rcases isSeparator_iff.mp hr' with rfl | rfl
  · rfl
  · exact hboth
  · exact hboth.symm
  · rfl

theorem Path.standsIn_of_separators {path path' : Path} (hsize : path'.size = path.size)
    (hsame : ∀ i : Nat, path'[i]? ≠ path[i]? →
      path'.hasSeparator i = true ∧ path.hasSeparator i = true) :
    path.StandsIn Node.SeparatorBlind path' 0 where
  any_eq node hnode test ht pos _ := by
    rw [Nat.zero_add]
    by_cases hpos : path'[pos]? = path[pos]?
    · rw [hpos]
    · obtain ⟨hsep', hsep⟩ := hsame pos hpos
      obtain ⟨r', hr', hr'sep⟩ := (Option.any_eq_true _ _).mp hsep'
      obtain ⟨r, hr, hrsep⟩ := (Option.any_eq_true _ _).mp hsep
      rw [hr', hr, Option.any_some, Option.any_some]
      exact hnode.test_eq ht hr'sep hrsep
  size_eq _ _ _ := by rw [hsize, Nat.zero_add]

namespace Pattern

/-- **The two separators are one.** If no literal of a pattern holds a separator and every range
holds both or neither, at every depth, then two paths of the same size that differ in nothing but
the choice of separators are matched alike, under all flags. -/
theorem accepts_eq_of_separators {p : Pattern}
    (hblind : Node.Everywhere Node.SeparatorBlind p.nodes) {path path' : Path}
    (hsize : path.size = path'.size)
    (hsame : ∀ i : Nat, path[i]? ≠ path'[i]? →
      path.hasSeparator i = true ∧ path'.hasSeparator i = true)
    (flags : Flags) : p.accepts path flags = p.accepts path' flags :=
  Search.accepts_eq_of_standsIn (Path.standsIn_of_separators hsize hsame) hsize hblind flags

/-- A double star goes to either separator, a negated class goes over either, and the range in the
second alternative holds both. -/
theorem accepts_eq_of_separators_range :
    let p : Pattern := ⟨[.globstar, .noneOf [[.literal ['a']]],
      .oneOf [[.anyChar, .literal ['b']], [.oneOf [[.range '!' '~']]]]]⟩
    let path : Path := #['x', '/', '\\', 'b']
    let path' : Path := #['x', '\\', '/', 'b']
    Node.Everywhere Node.SeparatorBlind p.nodes ∧ path.size = path'.size ∧
      (∀ i : Nat, path[i]? ≠ path'[i]? →
        path.hasSeparator i = true ∧ path'.hasSeparator i = true) ∧
      ∀ flags : Flags, p.accepts path flags = p.accepts path' flags := by
  intro p path path'
  have hliteral : ∀ r, isSeparator r = false → Node.SeparatorBlind (.literal [r]) := by
    intro r hr r' hr'
    obtain rfl := List.mem_singleton.mp hr'
    exact hr
  have hrange : Node.SeparatorBlind (.range '!' '~') := iff_of_true (by decide) (by decide)
  have hblind : Node.Everywhere Node.SeparatorBlind p.nodes :=
    ⟨trivial, ⟨trivial, ⟨hliteral 'a' rfl, trivial⟩, trivial⟩,
      ⟨trivial, ⟨trivial, hliteral 'b' rfl, trivial⟩, ⟨⟨trivial, ⟨hrange, trivial⟩, trivial⟩,
        trivial⟩, trivial⟩, trivial⟩
  have hsame : ∀ i : Nat, path[i]? ≠ path'[i]? →
      path.hasSeparator i = true ∧ path'.hasSeparator i = true := by
    rintro (_ | _ | _ | _ | i) hne
    · exact absurd rfl hne
    · decide
    · decide
    · exact absurd rfl hne
    · exact absurd rfl hne
  exact ⟨hblind, rfl, hsame, accepts_eq_of_separators hblind rfl hsame⟩

end Pattern

end PathGlob
