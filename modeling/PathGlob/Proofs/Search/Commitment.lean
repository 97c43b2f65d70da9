import PathGlob.Proofs.Search.Expansion
import PathGlob.Proofs.Syntax.Shape

/-!
# What a committed search may match

A group that commits gives up ends, and it makes none: whatever a walk passes, a walk of one of the
expansions passes too. The two part only where a negated class stops a walk under `legacyNegation`.
Inside an alternative the stop ends no more than the alternative, and the walk goes on behind the
group; in an expansion nothing is around the class any more, so the stop ends the walk, and a stop
at top level is a match. An expansion therefore meets an end in one of two ways (`Meets`), and
either is good enough for a match.

An expansion has to exist in order to be stopped, and a group without alternatives has none. In what
compiles every group has an alternative.
-/

namespace PathGlob

namespace Node

/-! ## Groups with alternatives -/

mutual

theorem exists_mem_expansions : ∀ {node : Node}, Throughout HasAlternative node →
    ∃ flat, flat ∈ expansions node
  | .oneOf [], h => absurd rfl h.1
  | .oneOf (alt :: alts), h => by
    obtain ⟨flat, hflat⟩ := exists_mem_sequenceExpansions h.2.1
    exact ⟨flat, mem_expansions_oneOf.mpr ⟨alt, List.mem_cons_self, hflat⟩⟩
  | .slash, _ | .globstar, _ | .anyChar, _ | .anyText, _ | .literal _, _ | .range _ _, _
  | .noneOf _, _ => by simp [expansions]

theorem exists_mem_sequenceExpansions : ∀ {nodes : List Node}, Everywhere HasAlternative nodes →
    ∃ flat, flat ∈ sequenceExpansions nodes
  | [], _ => by simp [sequenceExpansions]
  | node :: rest, h => by
    obtain ⟨left, hleft⟩ := exists_mem_expansions h.1
    obtain ⟨right, hright⟩ := exists_mem_sequenceExpansions h.2
    exact ⟨left ++ right, mem_sequenceExpansions_cons.mpr ⟨left, hleft, right, hright, rfl⟩⟩

end

theorem everywhere_of_wellShaped {nodes : List Node} (h : SequenceWellShaped nodes) :
    Everywhere HasAlternative nodes := by
  refine .of_wellShaped ?_ (fun _ _ ↦ trivial) h
  intro node hnode
  cases node with
  | oneOf alts =>
    rw [WellShaped] at hnode
    rcases hnode with ⟨hne, -⟩ | ⟨hne, -⟩
    · exact hne
    · exact hne
  | slash | globstar | anyChar | anyText | literal | range | noneOf => trivial

end Node

namespace Search

variable {path : Path} {flags : Flags}

/-! ## Meeting an end -/

/-- A walk of a sequence comes to an end, or else one of its walks is stopped. -/
def Meets (path : Path) (flags : Flags) (nodes : List Node) (pos : Nat) (e : End) : Prop :=
  e ∈ sequenceEnds path flags nodes pos ∨ ∃ p, .stopped p ∈ sequenceEnds path flags nodes pos

theorem stopped_mem_append {left : List Node} {pos p : Nat}
    (h : .stopped p ∈ sequenceEnds path flags left pos) (right : List Node) :
    .stopped p ∈ sequenceEnds path flags (left ++ right) pos := by
  rw [sequenceEnds_append, List.mem_flatMap]
  exact ⟨.stopped p, h, by simp [End.goOn]⟩

theorem Meets.append_of_stopped {left : List Node} {pos p : Nat}
    (h : Meets path flags left pos (.stopped p)) (right : List Node) (e : End) :
    Meets path flags (left ++ right) pos e := by
  obtain ⟨q, hq⟩ : ∃ q, .stopped q ∈ sequenceEnds path flags left pos := by
    rcases h with hp | hq
    · exact ⟨p, hp⟩
    · exact hq
  exact .inr ⟨q, stopped_mem_append hq right⟩

theorem Meets.append {left right : List Node} {pos p : Nat} {e : End}
    (hleft : Meets path flags left pos (.reached p)) (hright : Meets path flags right p e) :
    Meets path flags (left ++ right) pos e := by
  have hthrough : .reached p ∈ sequenceEnds path flags left pos →
      ∀ e' ∈ sequenceEnds path flags right p, e' ∈ sequenceEnds path flags (left ++ right) pos := by
    intro hp e' he'
    rw [sequenceEnds_append, List.mem_flatMap]
    exact ⟨.reached p, hp, he'⟩
  rcases hleft with hp | ⟨q, hq⟩
  · rcases hright with he | ⟨q, hq⟩
    · exact .inl (hthrough hp e he)
    · exact .inr ⟨q, hthrough hp _ hq⟩
  · exact .inr ⟨q, stopped_mem_append hq right⟩

theorem Meets.accepts {nodes : List Node} {e : End} (h : Meets path flags nodes 0 e)
    (hmatch : e.isMatch path flags = true) : accepts path flags nodes = true := by
  rw [accepts_iff]
  rcases h with he | ⟨p, hp⟩
  · exact ⟨e, he, hmatch⟩
  · exact ⟨.stopped p, hp, rfl⟩

/-! ## Expansions meet all ends -/

mutual

theorem exists_meets_of_mem_nodeEnds : ∀ {node : Node} {pos : Nat} {e : End},
    Node.Throughout Node.HasAlternative node → e ∈ nodeEnds path flags node pos →
      ∃ flat ∈ node.expansions, Meets path flags flat pos e
  | .oneOf alts, pos, e, hnode, he => by
    obtain ⟨alt, halt, e', he', rfl⟩ := mem_nodeEnds_oneOf he
    have halts : Node.Everywhere Node.HasAlternative alt :=
      Node.everywhereIn_iff.mp hnode.2 alt halt
    obtain ⟨flat, hflat, hmeets⟩ := exists_meets_of_mem_sequenceEnds halts he'
    refine ⟨flat, Node.mem_expansions_oneOf.mpr ⟨alt, halt, hflat⟩, ?_⟩
    -- the group takes a stop for an end like any other, but the expansion has been stopped
    cases e' with
    | reached p => exact hmeets
    | stopped p =>
      have hstop := hmeets.append_of_stopped [] (.reached p)
      rwa [List.append_nil] at hstop
  | .slash, _, _, _, he | .globstar, _, _, _, he | .anyChar, _, _, _, he | .anyText, _, _, _, he
  | .literal _, _, _, _, he | .range _ _, _, _, _, he | .noneOf _, _, _, _, he => by
    simp only [Node.expansions, List.mem_singleton, exists_eq_left]
    exact .inl (by rwa [sequenceEnds_singleton])

/-- Whatever end a sequence has, one of its expansions meets it. -/
theorem exists_meets_of_mem_sequenceEnds : ∀ {nodes : List Node} {pos : Nat} {e : End},
    Node.Everywhere Node.HasAlternative nodes → e ∈ sequenceEnds path flags nodes pos →
      ∃ flat ∈ Node.sequenceExpansions nodes, Meets path flags flat pos e
  | [], _, _, _, he => ⟨[], by simp [Node.sequenceExpansions], .inl he⟩
  | node :: rest, pos, e, ⟨hnode, hrest⟩, he => by
    rw [sequenceEnds_cons, List.mem_flatMap] at he
    obtain ⟨mid, hmid, he⟩ := he
    obtain ⟨left, hleft, hmeets⟩ := exists_meets_of_mem_nodeEnds hnode hmid
    cases mid with
    | reached p =>
      obtain ⟨right, hright, hbehind⟩ := exists_meets_of_mem_sequenceEnds hrest he
      exact ⟨left ++ right, Node.mem_sequenceExpansions_cons.mpr ⟨left, hleft, right, hright, rfl⟩,
        hmeets.append hbehind⟩
    | stopped p =>
      -- what comes behind the stop is never walked, but it has to be expanded
      obtain ⟨right, hright⟩ := Node.exists_mem_sequenceExpansions hrest
      exact ⟨left ++ right, Node.mem_sequenceExpansions_cons.mpr ⟨left, hleft, right, hright, rfl⟩,
        hmeets.append_of_stopped right e⟩

end

theorem exists_expansion_accepts {nodes : List Node} (h : Node.Everywhere Node.HasAlternative nodes)
    (hmatch : accepts path flags nodes = true) :
    ∃ flat ∈ Node.sequenceExpansions nodes, accepts path flags flat = true := by
  obtain ⟨e, he, hend⟩ := accepts_iff.mp hmatch
  obtain ⟨flat, hflat, hmeets⟩ := exists_meets_of_mem_sequenceEnds h he
  exact ⟨flat, hflat, hmeets.accepts hend⟩

end Search

namespace Pattern

/-- **Committing invents no match.** If a compiled pattern matches a path then one of its brace
expansions, which hold no plain groups any more, matches it under the same flags. This is so
whether or not the groups commit, with either meaning of the double star and of negated classes. -/
theorem exists_expansion_of_accepts {source : String} {p : Pattern} (h : compile source = .ok p)
    {path : Path} {flags : Flags} (hmatch : p.accepts path flags = true) :
    ∃ flat ∈ Node.sequenceExpansions p.nodes, (∀ alts, .oneOf alts ∉ flat) ∧
      Search.accepts path flags flat = true := by
  have hgroups : Node.Everywhere Node.HasAlternative p.nodes :=
    Node.everywhere_of_wellShaped (canonical_of_compile h).wellShaped
  obtain ⟨flat, hflat, haccepts⟩ := Search.exists_expansion_accepts hgroups hmatch
  exact ⟨flat, hflat, fun alts ↦ Node.oneOf_notMem_of_mem_sequenceExpansions hflat, haccepts⟩

/-- A negated class stops inside the braces, and the literal behind the group is reached without the
`y`. The expansion that matches is stopped at the class. -/
theorem exists_expansion_of_accepts_stop :
    let p : Pattern := ⟨[.oneOf [[.noneOf [[.literal ['x']]], .literal ['y']], [.literal ['b']]],
      .literal ['q']]⟩
    let flags : Flags := Flags.empty.insert .legacyNegation
    compile "\x7b[!x]y,b\x7dq" = .ok p ∧ p.accepts #['q', 'z'] flags = true ∧
      ∃ flat ∈ Node.sequenceExpansions p.nodes, (∀ alts, .oneOf alts ∉ flat) ∧
        Search.accepts #['q', 'z'] flags flat = true := by
  intro p flags
  have hcompile : compile "\x7b[!x]y,b\x7dq" = .ok p := by cbv
  have hends : Search.sequenceEnds #['q', 'z'] flags p.nodes 0 = [.reached 1] := by cbv
  have hmatch : p.accepts #['q', 'z'] flags = true :=
    Search.accepts_of_sequenceEnds_eq hends (by decide)
  exact ⟨hcompile, hmatch, exists_expansion_of_accepts hcompile hmatch⟩

end Pattern

end PathGlob
