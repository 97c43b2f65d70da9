import PathGlob.Pattern.Context
import PathGlob.Proofs.Search.Classes
import PathGlob.Proofs.Search.Decision

/-!
# Exchanging nodes

Some nodes may stand for others wherever they occur in a pattern. For that it is not enough that
their walks have the same ends: a group that commits keeps the end that comes first, so the order of
the ends matters as well. Their number does not. A search that comes upon an end for the second time
finds nothing that it has not found before, and a group that commits never gets to a repeated end.

So lists of ends are compared by what is found first in them (`Alike`), and sequences by their lists
from every position (`WalksAlike`). This is kept by everything that a pattern is built with, and by
filling a place of a pattern in particular (`WalksAlike.fill`), so an exchange is sound everywhere
once it is at the place itself. Two exchanges are proved: a group as the one node of an alternative
may give its alternatives to the group around it, and a class may be written with any members that
cover the same runes.
-/

namespace PathGlob.Search

variable {path : Path} {flags : Flags}

/-! ## Lists that are alike -/

/-- Whatever is looked for, the first end of that kind is the same in both lists. So the lists hold
the same ends in the order in which each comes first, and differ in nothing but repetitions. -/
def Alike (es es' : List End) : Prop := ∀ p : End → Bool, es.find? p = es'.find? p

namespace Alike

variable {es es' fs fs' : List End}

theorem refl (es : List End) : Alike es es := fun _ ↦ rfl

theorem of_eq (h : es = es') : Alike es es' := by
  rw [h]
  exact refl es'

theorem mem_iff (h : Alike es es') {e : End} : e ∈ es ↔ e ∈ es' := by
  have hfind : ∀ es : List End, e ∈ es ↔ (es.find? (· == e)).isSome = true := by
    intro es
    simp [List.find?_isSome]
  rw [hfind, hfind, h]

theorem append (h : Alike es es') (h' : Alike fs fs') : Alike (es ++ fs) (es' ++ fs') := by
  intro p
  rw [List.find?_append, List.find?_append, h, h']

theorem append_of_subset (h : fs ⊆ es) : Alike (es ++ fs) es := by
  intro p
  rw [List.find?_append]
  cases hfind : es.find? p with
  | some e => rw [Option.some_or]
  | none =>
    rw [Option.none_or, List.find?_eq_none]
    intro e he
    exact List.find?_eq_none.mp hfind e (h he)

theorem map (h : Alike es es') (f : End → End) : Alike (es.map f) (es'.map f) := by
  intro p
  rw [List.find?_map, List.find?_map, h]

theorem take_one (h : Alike es es') : Alike (es.take 1) (es'.take 1) := by
  -- the first end is the first one if nothing is asked of it
  have hfirst : ∀ es : List End, es.take 1 = (es.find? fun _ ↦ true).toList := by
    intro es
    rcases es with _ | ⟨e, es⟩ <;> rfl
  rw [hfirst, hfirst, h]
  exact refl _

/-- Going on from each end in turn, what is looked for is found behind the first end behind which it
is to be found. -/
theorem find?_flatMap_eq_bind (f : End → List End) (p : End → Bool) (es : List End) :
    (es.flatMap f).find? p =
      (es.find? fun e ↦ ((f e).find? p).isSome).bind fun e ↦ (f e).find? p := by
  induction es with
  | nil => rfl
  | cons e es ih =>
    rw [List.flatMap_cons, List.find?_append, ih]
    rcases hfound : (f e).find? p with _ | found
    · rw [List.find?_cons_of_neg (by simp [hfound]), Option.none_or]
    · rw [List.find?_cons_of_pos (by simp [hfound]), Option.bind_some, hfound, Option.some_or]

theorem flatMap (h : Alike es es') {f f' : End → List End} (hf : ∀ e, Alike (f e) (f' e)) :
    Alike (es.flatMap f) (es'.flatMap f') := by
  intro p
  simp only [find?_flatMap_eq_bind, hf _ p, h _]

theorem goOn {f f' : Nat → List End} (hf : ∀ pos, Alike (f pos) (f' pos)) (e : End) :
    Alike (e.goOn f) (e.goOn f') := by
  rcases e with pos | pos
  · exact hf pos
  · exact refl _

theorem of_mem_iff {P : Prop} {e : End} (h : ∀ e', e' ∈ es ↔ P ∧ e' = e)
    (h' : ∀ e', e' ∈ es' ↔ P ∧ e' = e) : Alike es es' := by
  intro p
  have hfind : ∀ es : List End, (∀ e', e' ∈ es ↔ P ∧ e' = e) → ∀ found,
      es.find? p = some found ↔ P ∧ p e = true ∧ found = e := by
    intro es h found
    constructor
    · intro hfound
      obtain ⟨hP, rfl⟩ := (h found).mp (List.mem_of_find?_eq_some hfound)
      exact ⟨hP, List.find?_some hfound, rfl⟩
    · rintro ⟨hP, hp, rfl⟩
      obtain ⟨found', hfound⟩ := Option.isSome_iff_exists.mp
        (List.find?_isSome.mpr ⟨found, (h found).mpr ⟨hP, rfl⟩, hp⟩)
      obtain ⟨-, rfl⟩ := (h found').mp (List.mem_of_find?_eq_some hfound)
      exact hfound
  apply Option.ext
  intro found
  rw [hfind es h, hfind es' h']

end Alike

/-! ## Sequences that are walked alike -/

theorem alternativesEnds_append (alts alts' : List (List Node)) (pos : Nat) :
    alternativesEnds path flags (alts ++ alts') pos =
      alternativesEnds path flags alts pos ++ alternativesEnds path flags alts' pos := by
  induction alts with
  | nil => rw [alternativesEnds, List.nil_append, List.nil_append]
  | cons alt alts ih =>
    rw [List.cons_append, alternativesEnds, alternativesEnds, ih, List.append_assoc]

/-- From every position, the ends of two sequences are alike. -/
def WalksAlike (path : Path) (flags : Flags) (nodes nodes' : List Node) : Prop :=
  ∀ pos, Alike (sequenceEnds path flags nodes pos) (sequenceEnds path flags nodes' pos)

namespace WalksAlike

variable {nodes nodes' left left' right right' : List Node}

theorem refl (nodes : List Node) : WalksAlike path flags nodes nodes := fun _ ↦ .refl _

theorem of_nodeEnds {node node' : Node}
    (h : ∀ pos, Alike (nodeEnds path flags node pos) (nodeEnds path flags node' pos)) :
    WalksAlike path flags [node] [node'] := by
  intro pos
  rw [sequenceEnds_singleton, sequenceEnds_singleton]
  exact h pos

theorem append (hleft : WalksAlike path flags left left')
    (hright : WalksAlike path flags right right') :
    WalksAlike path flags (left ++ right) (left' ++ right') := by
  intro pos
  rw [sequenceEnds_append, sequenceEnds_append]
  exact (hleft pos).flatMap (Alike.goOn hright)

theorem oneOf (h : WalksAlike path flags nodes nodes') (before after : List (List Node)) :
    WalksAlike path flags [.oneOf (before ++ nodes :: after)]
      [.oneOf (before ++ nodes' :: after)] := by
  have halts : ∀ pos, Alike (alternativesEnds path flags (before ++ nodes :: after) pos)
      (alternativesEnds path flags (before ++ nodes' :: after) pos) := by
    intro pos
    rw [alternativesEnds_append, alternativesEnds_append, alternativesEnds, alternativesEnds]
    exact (Alike.refl _).append (((h pos).map End.leave).append (.refl _))
  apply of_nodeEnds
  intro pos
  rw [nodeEnds, nodeEnds]
  split
  · exact halts pos
  · exact (halts pos).take_one

/-- **Exchange.** Sequences that are walked alike are so in every place of a pattern. -/
theorem fill (h : WalksAlike path flags nodes nodes') (place : Place) :
    WalksAlike path flags (place.fill nodes) (place.fill nodes') := by
  induction place with
  | here before after =>
    rw [Place.fill_here, Place.fill_here]
    exact ((refl before).append h).append (refl after)
  | inside before altsBefore place altsAfter after ih =>
    rw [Place.fill_inside, Place.fill_inside, ← List.singleton_append,
      ← List.singleton_append (l := after)]
    exact (refl before).append ((ih.oneOf altsBefore altsAfter).append (refl after))

theorem accepts_eq (h : WalksAlike path flags nodes nodes') :
    accepts path flags nodes = accepts path flags nodes' := by
  rw [Bool.eq_iff_iff, accepts_iff, accepts_iff]
  simp only [(h 0).mem_iff]

end WalksAlike

/-! ## Groups inside groups -/

theorem map_leave_alternativesEnds (alts : List (List Node)) (pos : Nat) :
    (alternativesEnds path flags alts pos).map End.leave =
      alternativesEnds path flags alts pos := by
  have hleave : ∀ e ∈ alternativesEnds path flags alts pos, e.leave = e := by
    intro e he
    obtain ⟨alt, -, e', -, rfl⟩ := mem_alternativesEnds.mp he
    rfl
  rw [List.map_congr_left hleave, List.map_id']

/-- A group that is all of an alternative may give its alternatives to the group around it. -/
theorem nodeEnds_nested (before inner after : List (List Node)) (pos : Nat) :
    nodeEnds path flags (.oneOf (before ++ [.oneOf inner] :: after)) pos =
      nodeEnds path flags (.oneOf (before ++ inner ++ after)) pos := by
  have hcommit : ∀ es fs gs : List End,
      (es ++ (fs.take 1 ++ gs)).take 1 = (es ++ fs ++ gs).take 1 := by
    intro es fs gs
    rcases es with _ | ⟨e, es⟩
    · rcases fs with _ | ⟨f, fs⟩ <;> rfl
    · rfl
  rw [nodeEnds, nodeEnds, alternativesEnds_append, alternativesEnds, sequenceEnds_singleton,
    nodeEnds, alternativesEnds_append, alternativesEnds_append]
  by_cases hfull : flags.has .fullMatch = true
  · rw [if_pos hfull, if_pos hfull, if_pos hfull, map_leave_alternativesEnds, List.append_assoc]
  · rw [if_neg hfull, if_neg hfull, if_neg hfull, List.map_take, map_leave_alternativesEnds]
    -- the inner group commits to its first end, and the outer one to the first end of all
    exact hcommit _ _ _

/-- **Nested groups flatten.** In every place of a pattern, a group may take the alternatives of a
group that is all of one of its alternatives, where that alternative was. -/
theorem accepts_fill_nested (place : Place) (before inner after : List (List Node)) (path : Path)
    (flags : Flags) :
    accepts path flags (place.fill [.oneOf (before ++ [.oneOf inner] :: after)]) =
      accepts path flags (place.fill [.oneOf (before ++ inner ++ after)]) := by
  have hwalks : WalksAlike path flags [.oneOf (before ++ [.oneOf inner] :: after)]
      [.oneOf (before ++ inner ++ after)] :=
    .of_nodeEnds fun pos ↦ .of_eq (nodeEnds_nested before inner after pos)
  exact (hwalks.fill place).accepts_eq

/-! ## Classes for classes -/

/-- **A class means its set of runes.** In every place of a pattern, a class may be exchanged for
any other class whose members cover the same runes, and likewise a negated class. -/
theorem accepts_fill_class {alts alts' : List (List Node)} (h : Node.ClassOnly (.oneOf alts))
    (h' : Node.ClassOnly (.oneOf alts')) (hcovers : ∀ r, Node.covers alts r = Node.covers alts' r)
    (place : Place) (path : Path) (flags : Flags) :
    accepts path flags (place.fill [.oneOf alts]) =
        accepts path flags (place.fill [.oneOf alts']) ∧
      accepts path flags (place.fill [.noneOf alts]) =
        accepts path flags (place.fill [.noneOf alts']) := by
  have hmember : ∀ pos, path.hasMember pos alts = path.hasMember pos alts' := by
    intro pos
    rw [Path.hasMember, Path.hasMember, funext hcovers]
  constructor
  · have hwalks : WalksAlike path flags [.oneOf alts] [.oneOf alts'] := by
      apply WalksAlike.of_nodeEnds
      intro pos
      -- the two lists may repeat the one end that there is in different numbers
      refine .of_mem_iff (fun e ↦ mem_nodeEnds_class h) (fun e ↦ ?_)
      rw [mem_nodeEnds_class h', hmember]
    exact (hwalks.fill place).accepts_eq
  · have hwalks : WalksAlike path flags [.noneOf alts] [.noneOf alts'] := by
      apply WalksAlike.of_nodeEnds
      intro pos
      apply Alike.of_eq
      rw [nodeEnds_negatedClass h, nodeEnds_negatedClass h', hmember]
    exact (hwalks.fill place).accepts_eq

/-- Ranges that overlap, for ranges that meet and a rune that is repeated, between a star and a
literal in the second alternative of a group. -/
theorem accepts_fill_class_ranges :
    let alts : List (List Node) := [[.range 'a' 'd'], [.range 'c' 'f']]
    let alts' : List (List Node) := [[.literal ['b']], [.range 'd' 'f'], [.range 'a' 'c'],
      [.literal ['b']]]
    let place : Place := .inside [.slash] [[.anyText]] (.here [.anyText] [.literal ['x']]) [] []
    Node.ClassOnly (.oneOf alts) ∧ Node.ClassOnly (.oneOf alts') ∧
      (∀ r, Node.covers alts r = Node.covers alts' r) ∧
      ∀ (path : Path) (flags : Flags),
        accepts path flags (place.fill [.oneOf alts]) =
            accepts path flags (place.fill [.oneOf alts']) ∧
          accepts path flags (place.fill [.noneOf alts]) =
            accepts path flags (place.fill [.noneOf alts']) := by
  intro alts alts' place
  have h : Node.ClassOnly (.oneOf alts) := by simp [alts, Node.ClassOnly]
  have h' : Node.ClassOnly (.oneOf alts') := by simp [alts', Node.ClassOnly]
  have hcovers : ∀ r, Node.covers alts r = Node.covers alts' r := by
    intro r
    rw [Bool.eq_iff_iff]
    simp only [alts, alts', Node.covers, Node.memberCovers, List.any_cons, List.any_nil,
      Bool.or_false, Bool.or_eq_true, Bool.and_eq_true, decide_eq_true_iff, beq_iff_eq, Char.le_def,
      UInt32.le_iff_toNat_le, Char.ext_iff, ← UInt32.toNat_inj]
    simp only [Char.reduceVal, UInt32.reduceToNat]
    omega
  exact ⟨h, h', hcovers, accepts_fill_class h h' hcovers place⟩

end PathGlob.Search
