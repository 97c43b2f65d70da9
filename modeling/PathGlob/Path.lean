import PathGlob.Rune

/-!
# Paths

A path is what a pattern is matched against: an array of runes, addressed by position. A position
may be the size of the path, where no rune stands, and every question about a rune has a negative
answer there.
-/

namespace PathGlob

/-- The runes of a path. -/
abbrev Path := Array Char

namespace Path

/-- The path of a text. -/
def ofText (text : String) : Path := text.toList.toArray

/-- Whether a separator stands at a position. -/
def hasSeparator (path : Path) (pos : Nat) : Bool := path[pos]?.any isSeparator

/-- Whether a rune other than a separator stands at a position. -/
def hasText (path : Path) (pos : Nat) : Bool := path[pos]?.any (!isSeparator ·)

/-- Whether a rune between two bounds stands at a position. -/
def hasBetween (path : Path) (pos : Nat) (lo hi : Char) : Bool :=
  path[pos]?.any fun r ↦ lo ≤ r && r ≤ hi

/-- Whether a text stands at a position. -/
def spells (path : Path) (pos : Nat) : List Char → Bool
  | [] => true
  | r :: runes => path[pos]? == some r && spells path (pos + 1) runes

/-- The first position at or behind `pos` with a separator. -/
def nextSeparator (path : Path) (pos : Nat) : Option Nat :=
  if h : pos < path.size then
    if isSeparator path[pos] then some pos else nextSeparator path (pos + 1)
  else none
termination_by path.size - pos

theorem lt_size_of_hasText {path : Path} {pos : Nat} (h : path.hasText pos = true) :
    pos < path.size := by
  rw [hasText, Option.any_eq_true] at h
  obtain ⟨r, hr, -⟩ := h
  exact (Array.getElem?_eq_some_iff.mp hr).1

theorem nextSeparator_bounds {path : Path} {pos i : Nat} (h : path.nextSeparator pos = some i) :
    pos ≤ i ∧ i < path.size := by
  fun_induction nextSeparator path pos with
  | case1 pos hpos hsep => simp at h; omega
  | case2 pos hpos hsep ih => have := ih h; omega
  | case3 pos hpos => simp at h

end Path

end PathGlob
