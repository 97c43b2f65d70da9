import PathGlob.Pattern.Everywhere
import PathGlob.Search.Sound

/-!
# The nodes of a search

A search walks no nodes but those it was started with and those inside them. So a condition that
holds of these at every depth holds of all nodes that a state names: of those still to be walked, of
those behind the groups that the search is inside of, and of those that its choices hold.
-/

namespace PathGlob.Search

variable {P : Node → Prop} {w : Setting} {s s' : State}

/-- A condition holds of all nodes that a choice holds, at every depth. -/
def Choice.Everywhere (P : Node → Prop) : Choice → Prop
  | .span rest _ => Node.Everywhere P rest
  | .separators rest _ => Node.Everywhere P rest
  | .alternatives alts _ => Node.EverywhereIn P alts

/-- A condition holds of all nodes that a state names, at every depth. -/
structure State.Everywhere (P : Node → Prop) (s : State) : Prop where
  /-- It holds of the nodes still to be walked. -/
  nodes : Node.Everywhere P s.nodes
  /-- It holds of the nodes behind each group. -/
  arena : ∀ (i : Nat) (k : Continuation), s.arena[i]? = some k → Node.Everywhere P k.rest
  /-- It holds of the nodes of each choice. -/
  stack : ∀ frame ∈ s.stack, frame.choice.Everywhere P

theorem everywhere_of_suffix {nodes rest : List Node} (hrest : rest <:+ nodes)
    (h : Node.Everywhere P nodes) : Node.Everywhere P rest := by
  rw [Node.everywhere_iff] at h ⊢
  intro node hnode
  exact h node (hrest.subset hnode)

theorem everywhere_initial {nodes : List Node} (h : Node.Everywhere P nodes) (pos : Nat) :
    (State.initial nodes pos).Everywhere P where
  nodes := h
  arena i k hk := by simp [State.initial] at hk
  stack frame hframe := by simp [State.initial] at hframe

theorem Choice.Everywhere.resume {path : Path} {choice choice' : Choice} {nodes : List Node}
    {pos : Nat} (h : choice.Everywhere P) (hr : choice.resume path = some (nodes, pos, choice')) :
    Node.Everywhere P nodes ∧ choice'.Everywhere P := by
  cases choice with
  | span rest last =>
    rw [Choice.resume] at hr
    split at hr
    · cases hr
      exact ⟨h, h⟩
    · cases hr
  | separators rest start =>
    obtain ⟨i, -, heq⟩ := Option.map_eq_some_iff.mp hr
    cases heq
    exact ⟨h, h⟩
  | alternatives alts pos =>
    cases alts with
    | nil => cases hr
    | cons alt alts =>
      cases hr
      exact h

theorem State.Everywhere.move (h : s.Everywhere P) (hm : Move w s s') : s'.Everywhere P := by
  cases hm with
  | @resume exhausted stack frame nodes pos choice hstack hexhausted hresume =>
    have hframe : ∀ f ∈ frame :: stack, f.choice.Everywhere P := by
      intro f hf
      refine h.stack f ?_
      rw [hstack]
      exact List.mem_append_right _ hf
    obtain ⟨hnodes, hchoice⟩ := (hframe frame List.mem_cons_self).resume hresume
    refine ⟨hnodes, ?_, ?_⟩
    · intro i k hk
      rw [getElem?_shrink] at hk
      split at hk
      · exact h.arena i k hk
      · cases hk
    · intro f hf
      rcases List.mem_cons.mp hf with rfl | hf
      · exact hchoice
      · exact hframe f (List.mem_cons_of_mem _ hf)
  | @leave i k hnodes hi hk =>
    refine ⟨h.arena i k hk, h.arena, ?_⟩
    intro f hf
    exact h.stack f ((cutBack_suffix _ _).subset hf)
  | goOn hnodes => exact ⟨everywhere_of_suffix hnodes h.nodes, h.arena, h.stack⟩
  | @goOnWith choice node rest pos hnodes hchoice =>
    have hrest : Node.Everywhere P rest :=
      everywhere_of_suffix (hnodes ▸ List.suffix_cons _ _) h.nodes
    refine ⟨hrest, h.arena, ?_⟩
    intro f hf
    rcases List.mem_cons.mp hf with rfl | hf
    · -- both kinds of wildcard leave what comes behind them
      rcases hchoice with ⟨-, rfl⟩ | ⟨-, start, rfl⟩
      · exact hrest
      · exact hrest
    · exact h.stack f hf
  | @enter alt rest alts hnodes =>
    have hall := h.nodes
    rw [hnodes, Node.Everywhere, Node.Throughout] at hall
    obtain ⟨⟨-, halt, halts⟩, hrest⟩ := hall
    refine ⟨halt, ?_, ?_⟩
    · intro i k hk
      rw [Array.getElem?_push] at hk
      split at hk
      · cases hk
        exact hrest
      · exact h.arena i k hk
    · intro f hf
      split at hf
      · exact h.stack f hf
      · rcases List.mem_cons.mp hf with rfl | hf
        · exact halts
        · exact h.stack f hf

end PathGlob.Search
