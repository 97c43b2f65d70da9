import PathGlob.Search.Run
import PathGlob.Syntax.Sequence

/-!
# Globs

A glob is a pattern together with the text it was read from and the flags it is matched under. That
the pattern is the reading of the text is part of the type, so a glob can be shown by its text and
nothing is lost. Globs are made by a builder, which collects flags before anything is read; reading
is the only step that can fail.
-/

namespace PathGlob

/-- A text that reads as a pattern, with the flags to match it under. -/
structure Glob where
  /-- The pattern text. -/
  source : String
  /-- The pattern. -/
  pattern : Pattern
  /-- The flags to match under. -/
  flags : Flags
  /-- The pattern is the reading of the text. -/
  compile_source : Pattern.compile source = .ok pattern

/-- A pattern text that has not been read yet, with the flags collected so far. -/
structure GlobBuilder where
  /-- The pattern text. -/
  source : String
  /-- The flags collected so far. -/
  flags : Flags := .empty

namespace GlobBuilder

/-- Puts a flag in or takes it out. -/
def put (b : GlobBuilder) (flag : Flag) (on : Bool) : GlobBuilder :=
  ⟨b.source, b.flags.put flag on⟩

/-- Adds flags, bits without a name included. -/
def add (b : GlobBuilder) (flags : Flags) : GlobBuilder := ⟨b.source, b.flags.union flags⟩

/-- Reads the text. -/
def build (b : GlobBuilder) : Except CompileError Glob :=
  match h : Pattern.compile b.source with
  | .error e => .error e
  | .ok pattern => .ok ⟨b.source, pattern, b.flags, h⟩

theorem build_eq_error_iff {b : GlobBuilder} {e : CompileError} :
    b.build = .error e ↔ Pattern.compile b.source = .error e := by
  rw [build]
  split
  · next h => rw [h]; simp
  · next h =>
    simp only [reduceCtorEq, false_iff]
    intro herror
    rw [h] at herror
    cases herror

theorem build_eq_ok_iff {b : GlobBuilder} {glob : Glob} :
    b.build = .ok glob ↔ glob.source = b.source ∧ glob.flags = b.flags := by
  rw [build]
  split
  · next h =>
    simp only [reduceCtorEq, false_iff, not_and]
    intro hsource
    have := glob.compile_source
    rw [hsource, h] at this
    cases this
  · next pattern h =>
    constructor
    · rintro ⟨⟩
      exact ⟨rfl, rfl⟩
    · rintro ⟨hsource, hflags⟩
      obtain ⟨source, pattern', flags, h'⟩ := glob
      subst hsource hflags
      rw [h] at h'
      cases h'
      rfl

end GlobBuilder

namespace Glob

/-- The glob of a text, without flags. -/
def compile (source : String) : Except CompileError Glob := GlobBuilder.build ⟨source, .empty⟩

/-- Whether the glob matches a path. -/
def accepts (glob : Glob) (path : Path) : Bool := glob.pattern.accepts path glob.flags

instance : ToString Glob := ⟨source⟩

/-- The glob as it is shown to programmers: its text in quotation marks and its flags. -/
def describe (glob : Glob) : String :=
  "Glob \x7b source: " ++ String.ofList (quoted '"' glob.source.toList) ++
    ", flags: MatchFlags(" ++ glob.flags.text ++ "), .. \x7d"

end Glob

/-! ## Matching without a glob -/

/-- Why a text could not be matched as a pattern. -/
inductive MatchError where
  /-- The text does not read as a pattern. -/
  | compile (error : CompileError)
  /-- The memory for the path could not be had. -/
  | outOfMemory
  deriving DecidableEq

/-- The message of an error. -/
def MatchError.message : MatchError → String
  | .compile error => error.message
  | .outOfMemory => CompileError.outOfMemory.message

instance : ToString MatchError := ⟨MatchError.message⟩

/-- Whether a text, read as a pattern without flags, matches a path. -/
def matchText (source : String) (path : Path) : Except MatchError Bool :=
  match Glob.compile source with
  | .error e => .error (.compile e)
  | .ok glob => .ok (glob.accepts path)

end PathGlob
