import PathGlob.Path
import PathGlob.Syntax.Concatenation

/-!
# Exact patterns

A text has a pattern for itself: a separator for each of its slashes, and a literal for each run of
other runes between them, where there is one. This pattern cannot ask for the slash alone, so what
it asks for of a whole path is the text with either separator in place of each slash. A backslash
of the text is a rune like any other and stands for itself.
-/

namespace PathGlob

/-- The nodes for a text: one separator for each slash, and between them a literal for each run of
other runes that is not empty. -/
def exactNodes (text : List Char) : List Node :=
  [Node.slash].intercalate ((text.splitOn '/').map fun run ↦ (Node.ofText? run).toList)

namespace Path

variable {path : Path} {pos : Nat} {r : Char} {text : List Char}

/-- Whether a rune of a text stands at a position: the rune itself, or a backslash for a slash. -/
def Shows (path : Path) (pos : Nat) (r : Char) : Prop :=
  path[pos]? = some r ∨ r = '/' ∧ path[pos]? = some '\\'

instance : Decidable (path.Shows pos r) := inferInstanceAs (Decidable (_ ∨ _))

/-- Whether the runes of a text stand at a position and the positions behind it. -/
def ShowsText (path : Path) (pos : Nat) (text : List Char) : Prop :=
  ∀ (i : Nat) (r : Char), text[i]? = some r → path.Shows (pos + i) r

/-- Whether a path is a text, up to the choice of a separator for each slash of the text. -/
structure Agrees (path : Path) (text : List Char) : Prop where
  /-- They have the same number of runes. -/
  size_eq : path.size = text.length
  /-- At each position they have the same rune, or the path has a separator for a slash. -/
  shows : ∀ (i : Nat) (r : Char), text[i]? = some r → path.Shows i r

theorem agrees_iff : path.Agrees text ↔ path.size = text.length ∧ path.ShowsText 0 text := by
  simp only [ShowsText, Nat.zero_add]
  constructor
  · rintro ⟨hsize, hshows⟩
    exact ⟨hsize, hshows⟩
  · rintro ⟨hsize, hshows⟩
    exact ⟨hsize, hshows⟩

theorem agrees_ofText (text : String) : (ofText text).Agrees text.toList where
  size_eq := List.size_toArray
  shows i r h := by
    left
    rw [ofText, List.getElem?_toArray, h]

@[simp] theorem showsText_nil : path.ShowsText pos [] := by
  intro i r h
  cases h

theorem showsText_cons :
    path.ShowsText pos (r :: text) ↔ path.Shows pos r ∧ path.ShowsText (pos + 1) text := by
  constructor
  · intro h
    refine ⟨h 0 r rfl, fun i r' hi ↦ ?_⟩
    have hnext := h (i + 1) r' hi
    rwa [Nat.add_comm i, ← Nat.add_assoc] at hnext
  · rintro ⟨hfirst, hrest⟩ i r' hi
    rcases i with _ | i
    · obtain rfl : r = r' := Option.some.inj hi
      exact hfirst
    · rw [Nat.add_comm i, ← Nat.add_assoc]
      exact hrest i r' hi

instance decidableShowsText : ∀ (pos : Nat) (text : List Char), Decidable (path.ShowsText pos text)
  | _, [] => .isTrue showsText_nil
  | pos, _ :: text =>
    have := decidableShowsText (pos + 1) text
    decidable_of_iff _ showsText_cons.symm

instance : Decidable (path.Agrees text) := decidable_of_iff _ agrees_iff.symm

end Path

/-! ## The nodes for a text, rune by rune -/

@[simp] theorem exactNodes_nil : exactNodes [] = [] := rfl

theorem exactNodes_slash (text : List Char) :
    exactNodes ('/' :: text) = .slash :: exactNodes text := by
  obtain ⟨run, runs, hruns⟩ := List.exists_cons_of_ne_nil (List.splitOn_ne_nil '/' text)
  have hsplit : ('/' :: text).splitOn '/' = [] :: run :: runs := by
    rw [← hruns]
    simp [List.splitOn, List.splitOnP_cons_eq_if_modifyHead]
  rw [exactNodes, exactNodes, hsplit, hruns]
  rfl

theorem exactNodes_rune {r : Char} (hr : r ≠ '/') (text : List Char) :
    exactNodes (r :: text) = Node.join [.literal [r]] (exactNodes text) := by
  obtain ⟨run, runs, hruns⟩ := List.exists_cons_of_ne_nil (List.splitOn_ne_nil '/' text)
  have hsplit : (r :: text).splitOn '/' = (r :: run) :: runs := by
    rw [List.splitOn] at hruns
    simp [List.splitOn, List.splitOnP_cons_eq_if_modifyHead, hr, hruns]
  rw [exactNodes, exactNodes, hsplit, hruns]
  rcases runs with _ | ⟨next, runs⟩ <;> rcases run with _ | ⟨r', run⟩ <;> rfl

end PathGlob
