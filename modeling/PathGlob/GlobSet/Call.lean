import PathGlob.GlobSet

/-!
# Histories of a glob set

A glob set comes about by calls. Some make a new set, of texts or of globs, in place of the one that
was there; others put a glob behind those of the set. A call that has to read a text fails with the
error of the first text that does not read as a pattern, and then the set stays as it was.

A glob is given by its text and its flags, that is by a builder, since its pattern is the reading of
the text. So what a set holds after some calls can be told by the builders alone, without making any
glob: `Call.record` does that.
-/

namespace PathGlob

/-- The builder that gives a glob. -/
def Glob.builder (glob : Glob) : GlobBuilder := ⟨glob.source, glob.flags⟩

namespace GlobSet

/-- The builders that give the globs of a set, in their order. -/
def builders (s : GlobSet) : List GlobBuilder := s.globs.map Glob.builder

/-- The error of the first text that does not read as a pattern. -/
def firstError? (texts : List String) : Option CompileError :=
  texts.findSome? fun text ↦
    match Pattern.compile text with
    | .error e => some e
    | .ok _ => none

/-- What may be done to a set. -/
inductive Call where
  /-- It is replaced by the set of some texts without flags. -/
  | ofTexts (texts : List String)
  /-- It is replaced by the set of some globs. -/
  | ofGlobs (globs : List Glob)
  /-- The glob of a builder is put behind the others. -/
  | push (builder : GlobBuilder)

namespace Call

/-- The texts that a call has to read. -/
def texts : Call → List String
  | ofTexts texts => texts
  | ofGlobs _ => []
  | push builder => [builder.source]

/-- The set that a call makes, or its error. -/
def outcome (s : GlobSet) : Call → Except CompileError GlobSet
  | ofTexts texts => GlobSet.ofTexts texts
  | ofGlobs globs => .ok (GlobSet.ofGlobs globs)
  | push builder => builder.build.map s.push

/-- What a call that does not fail makes of the builders of a set. -/
def effect (builders : List GlobBuilder) : Call → List GlobBuilder
  | ofTexts texts => texts.map fun text ↦ ⟨text, .empty⟩
  | ofGlobs globs => globs.map Glob.builder
  | push builder => builders ++ [builder]

/-- What a call makes of the builders of a set. -/
def record (builders : List GlobBuilder) (call : Call) : List GlobBuilder :=
  if (firstError? call.texts).isSome then builders else call.effect builders

end Call

/-- The set after a call. -/
def after (s : GlobSet) (call : Call) : GlobSet :=
  match call.outcome s with
  | .error _ => s
  | .ok s' => s'

/-- The set after some calls, the first of which finds the set without globs. -/
def ofCalls (calls : List Call) : GlobSet := calls.foldl after .empty

@[simp] theorem firstError?_nil : firstError? [] = none := rfl

theorem firstError?_cons_of_error {text : String} {e : CompileError}
    (h : Pattern.compile text = .error e) (texts : List String) :
    firstError? (text :: texts) = some e := by
  rw [firstError?, List.findSome?_cons, h]

theorem firstError?_cons_of_ok {text : String} {p : Pattern} (h : Pattern.compile text = .ok p)
    (texts : List String) : firstError? (text :: texts) = firstError? texts := by
  rw [firstError?, List.findSome?_cons, h, firstError?]

theorem firstError?_singleton {text : String} {e : CompileError} :
    firstError? [text] = some e ↔ Pattern.compile text = .error e := by
  match h : Pattern.compile text with
  | .error e' => simp [firstError?_cons_of_error h]
  | .ok p => simp [firstError?_cons_of_ok h]

@[simp] theorem builders_push (s : GlobSet) (glob : Glob) :
    (s.push glob).builders = s.builders ++ [glob.builder] := by
  rw [builders, globs_push, List.map_append, List.map_singleton, builders]

end GlobSet

end PathGlob
