import PathGlob.Glob

/-!
# Glob sets

A glob set is a list of globs in the order in which they were added, each with flags of its own.
Globs are named by their index, and which globs match a path is the list of their indices. The
first of them is found without asking the globs behind it. A set does not ask its globs, but matches
their patterns under their flags, which comes to the same.
-/

namespace PathGlob

/-- Globs in the order in which they were added. -/
structure GlobSet where
  /-- The globs, the first one first. -/
  globs : List Glob := []

namespace GlobSet

/-- The set without globs. -/
def empty : GlobSet := ⟨[]⟩

instance : Inhabited GlobSet := ⟨empty⟩

/-- The set of some globs, in their order. -/
def ofGlobs (globs : List Glob) : GlobSet := ⟨globs⟩

/-- The globs of some builders, in their order, or the error of the first that fails. -/
def buildAll (builders : List GlobBuilder) : Except CompileError (List Glob) :=
  builders.mapM GlobBuilder.build

/-- The set of some builders, in their order, or the error of the first that fails. -/
def ofBuilders (builders : List GlobBuilder) : Except CompileError GlobSet :=
  (buildAll builders).map ofGlobs

/-- The set of some texts without flags, in their order, or the error of the first that does not
read as a pattern. -/
def ofTexts (texts : List String) : Except CompileError GlobSet :=
  ofBuilders (texts.map fun text ↦ ⟨text, .empty⟩)

/-- The set with a glob behind all others. -/
def push (s : GlobSet) (glob : Glob) : GlobSet := ⟨s.globs ++ [glob]⟩

/-- How many globs are in the set. -/
def size (s : GlobSet) : Nat := s.globs.length

/-- Whether the set has no globs. -/
def isEmpty (s : GlobSet) : Bool := s.globs.isEmpty

/-- The glob at an index. -/
def get? (s : GlobSet) (i : Nat) : Option Glob := s.globs[i]?

/-- The index of the first glob that matches a path. -/
def firstHit? (s : GlobSet) (path : Path) : Option Nat :=
  s.globs.findIdx? fun glob ↦ glob.pattern.accepts path glob.flags

/-- Whether a glob matches a path. -/
def accepts (s : GlobSet) (path : Path) : Bool := (s.firstHit? path).isSome

/-- The indices of all globs that match a path, in increasing order. -/
def hits (s : GlobSet) (path : Path) : List Nat :=
  s.globs.zipIdx.filterMap fun (glob, i) ↦
    if glob.pattern.accepts path glob.flags then some i else none

/-- The patterns of a set are matched under the flags of their globs, and so each glob gives the
answer that it gives by itself. -/
theorem hits_eq (s : GlobSet) (path : Path) :
    s.hits path =
      s.globs.zipIdx.filterMap fun (glob, i) ↦ if glob.accepts path then some i else none := rfl

theorem firstHit?_eq (s : GlobSet) (path : Path) :
    s.firstHit? path = s.globs.findIdx? (·.accepts path) := rfl

@[simp] theorem buildAll_nil : buildAll [] = .ok [] := rfl

theorem buildAll_cons (b : GlobBuilder) (bs : List GlobBuilder) :
    buildAll (b :: bs) = b.build.bind fun glob ↦ (buildAll bs).map (glob :: ·) := by
  rw [buildAll, List.mapM_cons]
  rfl

@[simp] theorem globs_push (s : GlobSet) (glob : Glob) : (s.push glob).globs = s.globs ++ [glob] :=
  rfl

@[simp] theorem size_push (s : GlobSet) (glob : Glob) : (s.push glob).size = s.size + 1 := by
  simp [size]

end GlobSet

end PathGlob
