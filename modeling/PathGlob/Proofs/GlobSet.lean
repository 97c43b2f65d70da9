import PathGlob.GlobSet.Call
import PathGlob.Proofs.Syntax.Outcome

/-!
# Glob sets and their globs

A glob set answers for its globs one by one. Whatever has been done to it before, it holds the globs
of its builders in the order in which they were put in, each with its own flags, and the indices it
answers with are those of the globs that match.

For the first half a set is looked at through its builders: making globs of builders gives these
builders back, and so every call does to the builders of a set what `Call.record` says. For the
second half the list of hits is the one thing to know, since both other answers can be read off it.
-/

namespace PathGlob

theorem GlobBuilder.build_eq_ok_iff_builder {b : GlobBuilder} {glob : Glob} :
    b.build = .ok glob ↔ glob.builder = b := by
  rw [build_eq_ok_iff, Glob.builder, GlobBuilder.mk.injEq]

namespace GlobSet

open Reading (map_eq_ok map_eq_error)

variable {s s' : GlobSet} {e : CompileError}

/-! ## What calls do -/

theorem buildAll_eq_error_iff {bs : List GlobBuilder} :
    buildAll bs = .error e ↔ firstError? (bs.map GlobBuilder.source) = some e := by
  induction bs with
  | nil => simp
  | cons b bs ih =>
    rw [List.map_cons, buildAll_cons]
    match hb : b.build with
    | .error e' =>
      rw [firstError?_cons_of_error (GlobBuilder.build_eq_error_iff.mp hb)]
      simp [Except.bind]
    | .ok glob =>
      have hsource : Pattern.compile b.source = .ok glob.pattern := by
        rw [← GlobBuilder.build_eq_ok_iff_builder.mp hb]
        exact glob.compile_source
      rw [firstError?_cons_of_ok hsource, ← ih, Except.bind, map_eq_error]

theorem map_builder_of_buildAll {bs : List GlobBuilder} {globs : List Glob}
    (h : buildAll bs = .ok globs) : globs.map Glob.builder = bs := by
  induction bs generalizing globs with
  | nil =>
    cases h
    rfl
  | cons b bs ih =>
    rw [buildAll_cons] at h
    match hb : b.build with
    | .error e =>
      rw [hb] at h
      cases h
    | .ok glob =>
      rw [hb] at h
      obtain ⟨others, hothers, rfl⟩ := map_eq_ok.mp h
      rw [List.map_cons, ih hothers, GlobBuilder.build_eq_ok_iff_builder.mp hb]

/-- A call fails with the error of the first of its texts that does not read as a pattern. -/
theorem outcome_eq_error_iff {call : Call} :
    call.outcome s = .error e ↔ firstError? call.texts = some e := by
  match call with
  | .ofTexts texts =>
    rw [Call.outcome, Call.texts, ofTexts, ofBuilders, map_eq_error, buildAll_eq_error_iff,
      List.map_map]
    change firstError? (texts.map id) = some e ↔ _
    rw [List.map_id]
  | .ofGlobs globs => simp [Call.outcome, Call.texts]
  | .push b =>
    rw [Call.outcome, Call.texts, map_eq_error, firstError?_singleton,
      GlobBuilder.build_eq_error_iff]

theorem builders_of_outcome {call : Call} (h : call.outcome s = .ok s') :
    s'.builders = call.effect s.builders := by
  match call with
  | .ofTexts texts =>
    obtain ⟨globs, hglobs, rfl⟩ := map_eq_ok.mp h
    exact map_builder_of_buildAll hglobs
  | .ofGlobs globs =>
    cases h
    rfl
  | .push b =>
    obtain ⟨glob, hglob, rfl⟩ := map_eq_ok.mp h
    rw [builders_push, GlobBuilder.build_eq_ok_iff_builder.mp hglob, Call.effect]

theorem builders_after (s : GlobSet) (call : Call) :
    (s.after call).builders = call.record s.builders := by
  rw [after, Call.record]
  match hcall : call.outcome s with
  | .error e => rw [outcome_eq_error_iff.mp hcall, Option.isSome_some, if_pos rfl]
  | .ok s' =>
    have hnone : firstError? call.texts = none := by
      rw [Option.eq_none_iff_forall_ne_some]
      intro e he
      rw [outcome_eq_error_iff.mpr he] at hcall
      cases hcall
    rw [hnone, builders_of_outcome hcall]
    rfl

/-- A set that calls have made holds what they have put in. -/
theorem builders_ofCalls (calls : List Call) :
    (ofCalls calls).builders = calls.foldl Call.record [] :=
  (List.foldl_hom builders fun s call ↦ (builders_after s call).symm).symm

/-! ## What a set answers -/

variable {path : Path}

theorem mem_hits {i : Nat} :
    i ∈ s.hits path ↔ ∃ glob, s.get? i = some glob ∧ glob.accepts path = true := by
  rw [hits_eq, List.mem_filterMap]
  constructor
  · rintro ⟨⟨glob, j⟩, hmem, hhit⟩
    obtain ⟨haccepts, ⟨⟩⟩ := (Option.ite_none_right_eq_some ..).mp hhit
    exact ⟨glob, List.mem_zipIdx_iff_getElem?.mp hmem, haccepts⟩
  · rintro ⟨glob, hglob, haccepts⟩
    exact ⟨(glob, i), List.mem_zipIdx_iff_getElem?.mpr hglob, if_pos haccepts⟩

theorem pairwise_hits : (s.hits path).Pairwise (· < ·) := by
  have hindices : s.globs.zipIdx.Pairwise fun a b ↦ a.2 < b.2 := by
    rw [← List.pairwise_map, List.zipIdx_map_snd]
    exact List.pairwise_lt_range' 1
  rw [hits_eq, List.pairwise_filterMap]
  refine hindices.imp ?_
  -- a hit is the index of its glob, and the indices increase
  rintro ⟨glob, j⟩ ⟨glob', j'⟩ hlt i hi i' hi'
  obtain ⟨-, ⟨⟩⟩ := (Option.ite_none_right_eq_some ..).mp hi
  obtain ⟨-, ⟨⟩⟩ := (Option.ite_none_right_eq_some ..).mp hi'
  exact hlt

/-- Going through the globs until one matches finds the first hit. -/
theorem firstHit?_eq_head? : s.firstHit? path = (s.hits path).head? := by
  rw [firstHit?_eq, hits_eq, List.findIdx?_eq_findSome?_zipIdx, List.head?_filterMap]

theorem accepts_iff_hits_ne_nil : s.accepts path = true ↔ s.hits path ≠ [] := by
  rw [accepts, firstHit?_eq_head?, List.isSome_head?]

/-- **A set answers for its globs one by one.** Whatever calls have made a set, it holds the globs
that they have put in, in that order and each with its own flags: a call that reads a text which is
no pattern puts in nothing, and fails with the error of the first such text. The hits of the set at
a path are the indices of exactly those globs that match the path, in increasing order, the first
hit is the first of them if there is one, and the set matches if there is one. -/
theorem answers_ofCalls (calls : List Call) :
    (ofCalls calls).builders = calls.foldl Call.record [] ∧
      (∀ (call : Call) (e : CompileError),
        call.outcome (ofCalls calls) = .error e ↔ firstError? call.texts = some e) ∧
      ∀ path : Path,
        ((ofCalls calls).hits path).Pairwise (· < ·) ∧
        (∀ i, i ∈ (ofCalls calls).hits path ↔
          ∃ glob, (ofCalls calls).get? i = some glob ∧ glob.accepts path = true) ∧
        (ofCalls calls).firstHit? path = ((ofCalls calls).hits path).head? ∧
        ((ofCalls calls).accepts path = true ↔ (ofCalls calls).hits path ≠ []) :=
  ⟨builders_ofCalls calls, fun _ _ ↦ outcome_eq_error_iff, fun _ ↦
    ⟨pairwise_hits, fun _ ↦ mem_hits, firstHit?_eq_head?, accepts_iff_hits_ne_nil⟩⟩

end GlobSet

end PathGlob
