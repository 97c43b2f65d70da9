import PathGlob.Pattern
import PathGlob.Syntax.Error

/-!
# Texts in a row

What a text reads as does not change much if another text stands before it. Its error, if it has
one, is the same and only further back; its nodes come behind those of the other text, and only two
literals that meet become one.
-/

namespace PathGlob

/-- The error of a text with `k` other runes before it. -/
def CompileError.shift (k : Nat) : CompileError → CompileError
  | .expected what found offset => .expected what found (k + offset)
  | .unexpectedEnd offset => .unexpectedEnd (k + offset)
  | .tooDeep offset => .tooDeep (k + offset)
  | .outOfMemory => .outOfMemory

theorem CompileError.offset?_shift (k : Nat) (e : CompileError) :
    (e.shift k).offset? = e.offset?.map (k + ·) := by
  cases e <;> rfl

namespace Node

/-- Two sequences in a row, with one literal for the two that meet if the first sequence ends in a
literal and the second one starts with a literal. -/
def join (left right : List Node) : List Node :=
  match left.getLast?, right with
  | some (.literal runes), .literal runes' :: rest =>
    left.dropLast ++ .literal (runes ++ runes') :: rest
  | _, _ => left ++ right

variable {node : Node} {left right : List Node}

@[simp] theorem join_nil (right : List Node) : join [] right = right := by
  simp [join]

theorem join_cons (hleft : left ≠ []) : join (node :: left) right = node :: join left right := by
  obtain ⟨next, left, rfl⟩ := List.exists_cons_of_ne_nil hleft
  unfold join
  rw [List.getLast?_cons_cons]
  split <;> simp

theorem join_literal (runes runes' : List Char) (rest : List Node) :
    join [.literal runes] (.literal runes' :: rest) = .literal (runes ++ runes') :: rest := rfl

/-- Nothing is joined where no two literals meet. -/
theorem join_singleton
    (h : ∀ runes runes', node = .literal runes → right.head? ≠ some (.literal runes')) :
    join [node] right = node :: right := by
  unfold join
  split
  · next runes runes' rest hlast =>
    exact absurd rfl (h runes runes' (Option.some.inj hlast))
  · rfl

end Node

end PathGlob
