import PathGlob.Proofs.Search.Decision

/-!
# Which nodes read which flags

A double star reads `legacyGlobstar`, a negated group reads `legacyNegation`, and a plain group
reads `fullMatch`, as the end of the whole walk does. No other node reads a flag, and nothing reads
a bit without a name. So two sets of flags that agree on what the nodes of a sequence read lead to
the same ends of it, in the same order.

Agreement is asked of single nodes, those inside negated groups included, and so it goes with them
into every search that a search starts. That such a search goes without `fullMatch` takes a flag out
of both sets and leaves agreement as it is.
-/

namespace PathGlob

/-- The flag that a node reads, if it reads one. -/
def Node.flag? : Node → Option Flag
  | .globstar => some .legacyGlobstar
  | .oneOf _ => some .fullMatch
  | .noneOf _ => some .legacyNegation
  | .slash | .anyChar | .anyText | .literal _ | .range _ _ => none

/-- Two sets of flags agree on what a node reads. -/
def Flags.AgreeOn (a b : Flags) (node : Node) : Prop :=
  ∀ flag ∈ node.flag?, a.has flag = b.has flag

theorem Node.NotGlobstar.flag?_ne {node : Node} (h : node.NotGlobstar) :
    node.flag? ≠ some .legacyGlobstar := by
  intro hflag
  match node with
  | .globstar => exact h rfl
  | .oneOf _ | .noneOf _ => exact Flag.noConfusion (Option.some.inj hflag)

theorem Node.NotNegated.flag?_ne {node : Node} (h : node.NotNegated) :
    node.flag? ≠ some .legacyNegation := by
  intro hflag
  match node with
  | .noneOf alts => exact h alts rfl
  | .oneOf _ | .globstar => exact Flag.noConfusion (Option.some.inj hflag)

namespace Flags

theorem agreeOn_put {flag : Flag} {node : Node} (h : node.flag? ≠ some flag) (flags : Flags)
    (on : Bool) : (flags.put flag on).AgreeOn flags node := by
  rintro flag' hread
  rw [has_put, if_neg]
  rintro rfl
  exact h hread

theorem AgreeOn.erase {a b : Flags} {node : Node} (h : a.AgreeOn b node) (flag : Flag) :
    (a.erase flag).AgreeOn (b.erase flag) node := by
  intro flag' hread
  rw [has_erase, has_erase, h flag' hread]

end Flags

namespace Search

variable {path : Path}

/-! ## Walks -/

mutual

theorem nodeEnds_eq_of_agreeOn : ∀ {a b : Flags} {node : Node},
    node.Throughout (a.AgreeOn b) → nodeEnds path a node = nodeEnds path b node
  | a, b, .globstar, hnode => by
    have hagree : a.has .legacyGlobstar = b.has .legacyGlobstar := hnode _ rfl
    funext pos
    rw [nodeEnds, nodeEnds, hagree]
  | a, b, .oneOf alts, hnode => by
    have hagree : a.has .fullMatch = b.has .fullMatch := hnode.1 _ rfl
    funext pos
    rw [nodeEnds, nodeEnds, hagree, alternativesEnds_eq_of_agreeOn hnode.2]
  | a, b, .noneOf alts, hnode => by
    have hagree : a.has .legacyNegation = b.has .legacyNegation := hnode.1 _ rfl
    have halts : Node.EverywhereIn ((a.erase .fullMatch).AgreeOn (b.erase .fullMatch)) alts :=
      hnode.2.imp fun _ h ↦ h.erase .fullMatch
    funext pos
    rw [nodeEnds, nodeEnds, alternativesEnds_eq_of_agreeOn halts, hagree]
  | _, _, .slash, _ | _, _, .anyChar, _ | _, _, .anyText, _ | _, _, .literal _, _
  | _, _, .range _ _, _ => by
    funext pos
    rw [nodeEnds, nodeEnds]

/-- Flags that agree on what a sequence reads lead to the same ends. -/
theorem sequenceEnds_eq_of_agreeOn : ∀ {a b : Flags} {nodes : List Node},
    Node.Everywhere (a.AgreeOn b) nodes → sequenceEnds path a nodes = sequenceEnds path b nodes
  | a, b, [], _ => by
    funext pos
    rw [sequenceEnds_nil, sequenceEnds_nil]
  | a, b, node :: rest, hnodes => by
    funext pos
    rw [sequenceEnds_cons, sequenceEnds_cons, nodeEnds_eq_of_agreeOn hnodes.1,
      sequenceEnds_eq_of_agreeOn hnodes.2]

theorem alternativesEnds_eq_of_agreeOn : ∀ {a b : Flags} {alts : List (List Node)},
    Node.EverywhereIn (a.AgreeOn b) alts →
      alternativesEnds path a alts = alternativesEnds path b alts
  | a, b, [], _ => by
    funext pos
    rw [alternativesEnds, alternativesEnds]
  | a, b, alt :: alts, halts => by
    funext pos
    rw [alternativesEnds, alternativesEnds, sequenceEnds_eq_of_agreeOn halts.1,
      alternativesEnds_eq_of_agreeOn halts.2]

end

/-! ## Matches -/

theorem End.isMatch_eq_of_fullMatch {a b : Flags} (hfull : a.has .fullMatch = b.has .fullMatch) :
    End.isMatch path a = End.isMatch path b := by
  funext e
  match e with
  | .reached pos => rw [End.isMatch, End.isMatch, hfull]
  | .stopped pos => rfl

theorem accepts_eq_of_agreeOn {a b : Flags} {nodes : List Node}
    (hfull : a.has .fullMatch = b.has .fullMatch) (hnodes : Node.Everywhere (a.AgreeOn b) nodes) :
    accepts path a nodes = accepts path b nodes := by
  rw [Bool.eq_iff_iff, accepts_iff, accepts_iff, sequenceEnds_eq_of_agreeOn hnodes,
    End.isMatch_eq_of_fullMatch hfull]

end Search

namespace Pattern

open Search

/-- **Flags reach only the nodes they are about.** Bits without a name never change whether a
pattern matches. Nor does `legacyGlobstar`, whether it is put in or taken out, if the pattern has no
double star at any depth, nor `legacyNegation` if it has no negated group at any depth. -/
theorem accepts_eq_of_flags (p : Pattern) (path : Path) (flags : Flags) :
    p.accepts path flags.named = p.accepts path flags ∧
      (Node.Everywhere Node.NotGlobstar p.nodes → ∀ on,
        p.accepts path (flags.put .legacyGlobstar on) = p.accepts path flags) ∧
      (Node.Everywhere Node.NotNegated p.nodes → ∀ on,
        p.accepts path (flags.put .legacyNegation on) = p.accepts path flags) := by
  refine ⟨?_, ?_, ?_⟩
  · have hnamed : ∀ node, flags.named.AgreeOn flags node := fun _ flag _ ↦ flags.has_named flag
    refine accepts_eq_of_agreeOn (flags.has_named _) ?_
    exact everywhere_of_negationDepth_le (fun node _ ↦ hnamed node) (Nat.le_refl _)
  · intro hnodes on
    refine accepts_eq_of_agreeOn (by simp) (hnodes.imp ?_)
    exact fun _ hnode ↦ flags.agreeOn_put hnode.flag?_ne on
  · intro hnodes on
    refine accepts_eq_of_agreeOn (by simp) (hnodes.imp ?_)
    exact fun _ hnode ↦ flags.agreeOn_put hnode.flag?_ne on

/-- `*{[!x]y,b}` has no double star and `{**/b,a}?` no negated group, so each of them is blind to
one flag and to the highest bit, which has no name. -/
theorem accepts_eq_of_flags_unread :
    let flags : Flags := ⟨0x80000001#32⟩
    let path : Path := #['a', '/', 'b', 'y']
    let p : Pattern :=
      ⟨[.anyText, .oneOf [[.noneOf [[.literal ['x']]], .literal ['y']], [.literal ['b']]]]⟩
    let q : Pattern :=
      ⟨[.oneOf [[.globstar, .slash, .literal ['b']], [.literal ['a']]], .anyChar]⟩
    p.accepts path flags.named = p.accepts path flags ∧
      (Node.Everywhere Node.NotGlobstar p.nodes ∧
        p.accepts path (flags.put .legacyGlobstar true) = p.accepts path flags) ∧
      Node.Everywhere Node.NotNegated q.nodes ∧
        q.accepts path (flags.put .legacyNegation true) = q.accepts path flags := by
  intro flags path p q
  have hp : Node.Everywhere Node.NotGlobstar p.nodes := by
    simp [p, Node.Everywhere, Node.Throughout, Node.EverywhereIn, Node.NotGlobstar]
  have hq : Node.Everywhere Node.NotNegated q.nodes := by
    simp [q, Node.Everywhere, Node.Throughout, Node.EverywhereIn, Node.NotNegated]
  exact ⟨(accepts_eq_of_flags p path flags).1,
    ⟨hp, (accepts_eq_of_flags p path flags).2.1 hp true⟩,
    hq, (accepts_eq_of_flags q path flags).2.2 hq true⟩

end Pattern

end PathGlob
