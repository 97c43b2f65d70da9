import PathGlob.Proofs.Search.Classes
import PathGlob.Proofs.Search.Expansion

/-!
# Beginnings of a path

Without `fullMatch` a match is a walk of some beginning of the path, and one would like to say that
it is a match of this beginning as a whole. That is not so if a group commits. It is so if all
groups are classes, and this file proves it.

A walk of a path is a walk of every longer path, since a walk asks for the runes that are there and
never for the end of the path. The other way round, a walk that ends at a position is a walk of the
beginning up to this position, with one exception: a double star may go to the separator at which
the walk ends, and the beginning no longer holds this separator. What comes behind the double star
then walks nothing at all, so it does as well where the double star stands, and the beginning up to
there is the one to take.
-/

namespace PathGlob

/-! ## Beginnings -/

/-- The runes of a path are the first runes of another. -/
def Path.Begins (path whole : Path) : Prop := ∀ pos < path.size, whole[pos]? = path[pos]?

namespace Path.Begins

variable {path whole : Path} {pos : Nat}

theorem any_getElem? (h : path.Begins whole) {p : Char → Bool} (hp : path[pos]?.any p = true) :
    whole[pos]?.any p = true := by
  rwa [h pos (lt_size_of_any hp)]

theorem spells (h : path.Begins whole) {runes : List Char} (hs : path.spells pos runes = true) :
    whole.spells pos runes = true := by
  induction runes generalizing pos with
  | nil => rfl
  | cons r runes ih =>
    rw [Path.spells, Bool.and_eq_true, beq_iff_eq] at hs ⊢
    have hlt : pos < path.size := (Array.getElem?_eq_some_iff.mp hs.1).1
    exact ⟨(h pos hlt).trans hs.1, ih hs.2⟩

theorem spells_of_le (h : path.Begins whole) {runes : List Char}
    (hs : whole.spells pos runes = true) (hle : pos + runes.length ≤ path.size) :
    path.spells pos runes = true := by
  induction runes generalizing pos with
  | nil => rfl
  | cons r runes ih =>
    rw [List.length_cons] at hle
    rw [Path.spells, Bool.and_eq_true, beq_iff_eq] at hs ⊢
    exact ⟨(h pos (by omega)).symm.trans hs.1, ih hs.2 (by omega)⟩

end Path.Begins

theorem Path.begins_take (path : Path) (n : Nat) : Path.Begins (path.take n) path := by
  intro pos hpos
  have hlt : pos < min n path.size := by simpa using hpos
  rw [Array.take_eq_extract, Array.getElem?_extract, Nat.sub_zero, if_pos hlt, Nat.zero_add]

theorem Path.begins_append (path more : Path) : Path.Begins path (path ++ more) :=
  fun _ hpos ↦ Array.getElem?_append_left hpos

theorem Path.size_take {path : Path} {n : Nat} (h : n ≤ path.size) :
    Array.size (path.take n) = n := by
  simp [h]

namespace Search

variable {path whole : Path} {flags : Flags} {node : Node} {nodes : List Node} {pos q : Nat}

/-! ## Nodes of several runes -/

theorem reached_mem_nodeEnds_literal {runes : List Char} :
    .reached q ∈ nodeEnds path flags (.literal runes) pos ↔
      path.spells pos runes = true ∧ q = pos + runes.length := by
  rw [nodeEnds, List.mem_ite_nil_right, List.mem_singleton, End.reached.injEq]

theorem reached_mem_nodeEnds_globstar (hglobstar : flags.has .legacyGlobstar = false) :
    .reached q ∈ nodeEnds path flags .globstar pos ↔
      q = pos ∨ pos < q ∧ path.hasSeparator q = true := by
  rw [nodeEnds, hglobstar, if_neg Bool.false_ne_true, List.mem_map]
  simp only [End.reached.injEq, exists_eq_right, Path.mem_globstarPlaces]

theorem reached_mem_nodeEnds_anyText :
    .reached q ∈ nodeEnds path flags .anyText pos ↔
      pos ≤ q ∧ ∀ i, pos ≤ i → i < q → path.hasText i = true := by
  rw [nodeEnds, List.mem_map]
  simp only [End.reached.injEq, exists_eq_right, Path.mem_segmentRest]

section Classes

variable (hglobstar : flags.has .legacyGlobstar = false)
  (hnegation : flags.has .legacyNegation = false)

include hglobstar hnegation

/-! ## Longer paths -/

theorem reached_mem_nodeEnds_of_begins (hbegins : path.Begins whole) (hclass : node.ClassOnly)
    (h : .reached q ∈ nodeEnds path flags node pos) :
    .reached q ∈ nodeEnds whole flags node pos := by
  cases node with
  | slash | anyChar | range | oneOf | noneOf =>
    rw [reached_mem_nodeEnds_of_isRuneWise hnegation hclass rfl] at h ⊢
    exact ⟨hbegins.any_getElem? h.1, h.2⟩
  | literal runes =>
    rw [reached_mem_nodeEnds_literal] at h ⊢
    exact ⟨hbegins.spells h.1, h.2⟩
  | globstar =>
    rw [reached_mem_nodeEnds_globstar hglobstar] at h ⊢
    exact h.imp_right fun ⟨hlt, hsep⟩ ↦ ⟨hlt, hbegins.any_getElem? hsep⟩
  | anyText =>
    rw [reached_mem_nodeEnds_anyText] at h ⊢
    exact ⟨h.1, fun i hi hiq ↦ hbegins.any_getElem? (h.2 i hi hiq)⟩

theorem reached_mem_sequenceEnds_of_begins (hbegins : path.Begins whole)
    (hclass : Node.Everywhere Node.ClassOnly nodes)
    (h : .reached q ∈ sequenceEnds path flags nodes pos) :
    .reached q ∈ sequenceEnds whole flags nodes pos := by
  induction nodes generalizing pos with
  | nil => simpa using h
  | cons node rest ih =>
    rw [reached_mem_sequenceEnds_cons] at h ⊢
    obtain ⟨p, hp, hq⟩ := h
    have hnode := reached_mem_nodeEnds_of_begins hglobstar hnegation hbegins hclass.1.self hp
    exact ⟨p, hnode, ih hclass.2 hq⟩

/-! ## Shorter paths -/

/-- A walk of a node is one in every beginning of the path that goes as far, unless it is that of a
double star to the separator just behind the beginning. -/
theorem reached_mem_nodeEnds_of_le (hbegins : path.Begins whole) (hclass : node.ClassOnly)
    (hq : q ≤ path.size) (h : .reached q ∈ nodeEnds whole flags node pos) :
    .reached q ∈ nodeEnds path flags node pos ∨ node = .globstar ∧ q = path.size := by
  cases node with
  | slash | anyChar | range | oneOf | noneOf =>
    rw [reached_mem_nodeEnds_of_isRuneWise hnegation hclass rfl] at h ⊢
    obtain ⟨htakes, rfl⟩ := h
    have hsame : whole[pos]? = path[pos]? := hbegins pos hq
    exact .inl ⟨hsame ▸ htakes, rfl⟩
  | literal runes =>
    rw [reached_mem_nodeEnds_literal] at h ⊢
    obtain ⟨hspells, rfl⟩ := h
    exact .inl ⟨hbegins.spells_of_le hspells hq, rfl⟩
  | globstar =>
    rw [reached_mem_nodeEnds_globstar hglobstar] at h ⊢
    -- a double star asks for the rune behind its place, which the beginning may lack
    rcases Nat.eq_or_lt_of_le hq with heq | hlt
    · exact .inr ⟨rfl, heq⟩
    · left
      apply h.imp_right
      rintro ⟨hpos, hsep⟩
      have hsame : whole[q]? = path[q]? := hbegins q hlt
      rw [Path.hasSeparator, hsame] at hsep
      exact ⟨hpos, hsep⟩
  | anyText =>
    rw [reached_mem_nodeEnds_anyText] at h ⊢
    refine .inl ⟨h.1, ?_⟩
    intro i hi hiq
    have htext := h.2 i hi hiq
    have hsame : whole[i]? = path[i]? := hbegins i (Nat.lt_of_lt_of_le hiq hq)
    rwa [Path.hasText, hsame] at htext

/-! ## The end of a path -/

theorem reached_mem_nodeEnds_size (hclass : node.ClassOnly)
    (h : .reached q ∈ nodeEnds path flags node path.size) :
    q = path.size ∧ ∀ path' : Path, .reached path'.size ∈ nodeEnds path' flags node path'.size := by
  have hnone : ∀ {p : Char → Bool}, path[path.size]?.any p ≠ true := by
    intro p hp
    exact Nat.lt_irrefl _ (Path.lt_size_of_any hp)
  obtain ⟨hle, hge⟩ := le_pos_of_mem_nodeEnds (Nat.le_refl _) h
  obtain rfl : q = path.size := Nat.le_antisymm hge hle
  refine ⟨rfl, ?_⟩
  intro path'
  cases node with
  | slash | anyChar | range | oneOf | noneOf =>
    rw [reached_mem_nodeEnds_of_isRuneWise hnegation hclass rfl] at h
    exact absurd h.1 hnone
  | literal runes =>
    rw [reached_mem_nodeEnds_literal] at h ⊢
    have hlength : runes.length = 0 := by omega
    rw [List.length_eq_zero_iff.mp hlength]
    exact ⟨rfl, rfl⟩
  | globstar =>
    rw [reached_mem_nodeEnds_globstar hglobstar]
    exact .inl rfl
  | anyText =>
    rw [reached_mem_nodeEnds_anyText]
    exact ⟨Nat.le_refl _, by omega⟩

/-- Whatever a sequence walks at the end of a path, it walks at the end of any path. -/
theorem reached_mem_sequenceEnds_size (hclass : Node.Everywhere Node.ClassOnly nodes)
    (h : .reached q ∈ sequenceEnds path flags nodes path.size) (path' : Path) :
    .reached path'.size ∈ sequenceEnds path' flags nodes path'.size := by
  induction nodes with
  | nil => simp
  | cons node rest ih =>
    rw [reached_mem_sequenceEnds_cons] at h ⊢
    obtain ⟨p, hp, hq⟩ := h
    obtain ⟨rfl, hnode⟩ := reached_mem_nodeEnds_size hglobstar hnegation hclass.1.self hp
    exact ⟨path'.size, hnode path', ih hclass.2 hq⟩

/-- **A walk walks a beginning.** Some beginning of the path has a walk that ends where it ends. -/
theorem exists_take_of_reached (hclass : Node.Everywhere Node.ClassOnly nodes)
    (hpos : pos ≤ path.size) (h : .reached q ∈ sequenceEnds path flags nodes pos) :
    ∃ k, pos ≤ k ∧ k ≤ path.size ∧ .reached k ∈ sequenceEnds (path.take k) flags nodes pos := by
  induction nodes generalizing pos with
  | nil => exact ⟨pos, Nat.le_refl _, hpos, by simp⟩
  | cons node rest ih =>
    rw [reached_mem_sequenceEnds_cons] at h
    obtain ⟨p, hp, hq⟩ := h
    have hle := le_pos_of_mem_nodeEnds hpos hp
    obtain ⟨k, hpk, hk, hrest⟩ := ih hclass.2 hle.2 hq
    have hsize : Array.size (path.take k) = k := Path.size_take hk
    have hnode := reached_mem_nodeEnds_of_le hglobstar hnegation (path.begins_take k)
      hclass.1.self (hsize.symm ▸ hpk) hp
    -- the beginning that the rest walks is long enough for the node too, but for one case
    rcases hnode with hnode | ⟨rfl, hpk⟩
    · refine ⟨k, Nat.le_trans hle.1 hpk, hk, ?_⟩
      rw [reached_mem_sequenceEnds_cons]
      exact ⟨p, hnode, hrest⟩
    · -- the rest walked nothing, so the double star may stay where it stands
      obtain rfl : p = k := hpk.trans hsize
      have hnothing : .reached p ∈
          sequenceEnds (path.take p) flags rest (Array.size (path.take p)) := by
        rwa [hsize]
      have hend := reached_mem_sequenceEnds_size hglobstar hnegation hclass.2 hnothing
        (path.take pos)
      rw [Path.size_take hpos] at hend
      refine ⟨pos, Nat.le_refl _, hpos, ?_⟩
      rw [reached_mem_sequenceEnds_cons]
      exact ⟨pos, (reached_mem_nodeEnds_globstar hglobstar).mpr (.inl rfl), hend⟩

end Classes

/-! ## Matches of beginnings -/

theorem accepts_iff_exists_reached (hfull : flags.has .fullMatch = false)
    (hnegation : flags.has .legacyNegation = false) :
    accepts path flags nodes = true ↔ ∃ q, .reached q ∈ sequenceEnds path flags nodes 0 := by
  rw [accepts_iff_exists_mem hfull]
  constructor
  · rintro ⟨e, he⟩
    cases e with
    | reached q => exact ⟨q, he⟩
    | stopped q => exact absurd he (stopped_notMem_sequenceEnds hnegation nodes 0 q)
  · rintro ⟨q, hq⟩
    exact ⟨_, hq⟩

end Search

namespace Pattern

open Search

/-- **Matching a beginning.** If all groups of a pattern are classes then a path matches without
`fullMatch` exactly if some beginning of it matches as a whole. So a match of the whole path is a
match, and a match stays one whatever text is added to the path. -/
theorem accepts_iff_exists_take {p : Pattern} (hclass : Node.Everywhere Node.ClassOnly p.nodes)
    (path : Path) :
    (p.accepts path .empty = true ↔
        ∃ k ≤ path.size, p.accepts (path.take k) (Flags.empty.insert .fullMatch) = true) ∧
      (p.accepts path (Flags.empty.insert .fullMatch) = true → p.accepts path .empty = true) ∧
      ∀ more : Path, p.accepts path .empty = true → p.accepts (path ++ more) .empty = true := by
  have hany : ∀ path : Path, p.accepts path .empty = true ↔
      ∃ q, .reached q ∈ sequenceEnds path .empty p.nodes 0 :=
    fun path ↦ accepts_iff_exists_reached (by simp) (by simp)
  have hwhole : ∀ path : Path, p.accepts path (Flags.empty.insert .fullMatch) = true ↔
      .reached path.size ∈ sequenceEnds path .empty p.nodes 0 := by
    intro path
    rw [Pattern.accepts, accepts_iff_reached_size (by simp) (by simp)]
    exact mem_sequenceEnds_congr_of_classOnly (by simp) (by simp) hclass
  have hbegins : ∀ {path whole : Path} {q : Nat}, path.Begins whole →
      .reached q ∈ sequenceEnds path .empty p.nodes 0 →
        .reached q ∈ sequenceEnds whole .empty p.nodes 0 :=
    fun hbegins ↦ reached_mem_sequenceEnds_of_begins (by simp) (by simp) hbegins hclass
  refine ⟨?_, ?_, ?_⟩
  · rw [hany]
    constructor
    · rintro ⟨q, hq⟩
      obtain ⟨k, -, hk, hmem⟩ :=
        exists_take_of_reached (by simp) (by simp) hclass (Nat.zero_le _) hq
      refine ⟨k, hk, ?_⟩
      rwa [hwhole, Path.size_take hk]
    · rintro ⟨k, -, hmatch⟩
      exact ⟨_, hbegins (path.begins_take k) ((hwhole _).mp hmatch)⟩
  · rw [hany, hwhole]
    exact fun hmem ↦ ⟨_, hmem⟩
  · intro more
    rw [hany, hany]
    rintro ⟨q, hq⟩
    exact ⟨q, hbegins (path.begins_append more) hq⟩

/-- The pattern `[ax-z]**[!c]*`: the double star may stay behind the `a` or go on to the separator,
and the negated class takes the separator in either case. The path matches, and so do a beginning of
it as a whole and every path that goes on. -/
theorem accepts_iff_exists_take_globstar :
    let p : Pattern :=
      ⟨[.oneOf [[.literal ['a']], [.range 'x' 'z']], .globstar, .noneOf [[.literal ['c']]],
        .anyText]⟩
    let path : Path := #['a', '/', 'b']
    Node.Everywhere Node.ClassOnly p.nodes ∧ p.accepts path .empty = true ∧
      (p.accepts path .empty = true ↔
        ∃ k ≤ path.size, p.accepts (path.take k) (Flags.empty.insert .fullMatch) = true) ∧
      (∃ k ≤ path.size, p.accepts (path.take k) (Flags.empty.insert .fullMatch) = true) ∧
      (p.accepts path (Flags.empty.insert .fullMatch) = true → p.accepts path .empty = true) ∧
      ∀ more : Path, p.accepts path .empty = true → p.accepts (path ++ more) .empty = true := by
  intro p path
  have hclass : Node.Everywhere Node.ClassOnly p.nodes := by
    simp [p, Node.Everywhere, Node.Throughout, Node.EverywhereIn, Node.ClassOnly]
  have hends : sequenceEnds path .empty p.nodes 0 = [.reached 2, .reached 3] := by cbv
  have hmatch : p.accepts path .empty = true :=
    accepts_of_sequenceEnds_eq hends (by decide)
  obtain ⟨hiff, hwhole, hmore⟩ := accepts_iff_exists_take hclass path
  exact ⟨hclass, hmatch, hiff, hiff.mp hmatch, hwhole, hmore⟩

end Pattern

end PathGlob
