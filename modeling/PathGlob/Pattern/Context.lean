import PathGlob.Pattern

/-!
# Places in a pattern

A place is a gap in a sequence, either at top level or inside an alternative of a plain group at any
depth. Filling a place with nodes gives a sequence. Two fillings of one place give sequences that
differ there and nowhere else, which is how it is said that nodes may be exchanged for others
wherever they stand.
-/

namespace PathGlob

/-- A sequence with a gap in it. -/
inductive Place where
  /-- The gap is between some nodes of the sequence itself. -/
  | here (before after : List Node)
  /-- The gap is inside an alternative of a plain group of the sequence. -/
  | inside (before : List Node) (altsBefore : List (List Node)) (place : Place)
    (altsAfter : List (List Node)) (after : List Node)

namespace Place

/-- The sequence with some nodes in the gap. -/
def fill (nodes : List Node) : Place → List Node
  | .here before after => before ++ nodes ++ after
  | .inside before altsBefore place altsAfter after =>
    before ++ .oneOf (altsBefore ++ place.fill nodes :: altsAfter) :: after

@[simp] theorem fill_here (nodes before after : List Node) :
    (here before after).fill nodes = before ++ nodes ++ after := rfl

@[simp] theorem fill_inside (nodes before after : List Node)
    (altsBefore altsAfter : List (List Node)) (place : Place) :
    (inside before altsBefore place altsAfter after).fill nodes =
      before ++ .oneOf (altsBefore ++ place.fill nodes :: altsAfter) :: after := rfl

end Place

end PathGlob
