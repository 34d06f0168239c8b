import ChoiceLogic.Proofs.Combine.Flattening
import ChoiceLogic.Proofs.Text.ByteOrder

/-! # The operations within an expression

What holds of every operation within an expression that was built by `combine`, at any depth and
whatever the leaves are.
-/

namespace ChoiceLogic.Expression

/-- The second expression is a node of the first, at any depth. -/
inductive Within : Expression → Expression → Prop where
  | self (e : Expression) : Within e e
  | operand {op : Operator} {operands : List Expression} {e x : Expression} (mem : e ∈ operands)
      (inside : Within e x) : Within (.operation op operands) x

theorem Canonical.of_within {e x : Expression} (canonical : e.Canonical) (inside : e.Within x) :
    x.Canonical := by
  induction inside with
  | self => exact canonical
  | operand mem _ ih => exact ih (canonical.operands _ mem)

namespace CanonicalNode

variable {op : Operator} {operands : List Expression}

theorem not_bytesBefore (node : CanonicalNode op operands) {i j : Nat} (before : i < j)
    (hj : j < operands.length) :
    ¬ Text.BytesBefore (operands[j].render).utf8 (operands[i].render).utf8 :=
  (Text.notAfter_iff _ _).mp (List.pairwise_iff_getElem.mp node.ascending i j _ hj before)

/-- Operands of the same text are unlike each other, whichever of them is asked. -/
theorem alike_eq_false (node : CanonicalNode op operands) {i j : Nat} (hi : i < operands.length)
    (hj : j < operands.length) (other : i ≠ j) (text : operands[i].render = operands[j].render) :
    operands[i].alike operands[j] = false := by
  have unlike {x y : Expression} (distinct : repeats y x = false) (same : x.render = y.render) :
      x.alike y = false := by
    simpa [repeats, same] using distinct
  rcases Nat.lt_or_gt_of_ne other with before | before
  · exact unlike (List.pairwise_iff_getElem.mp node.distinct i j hi hj before) text
  · rw [alike_comm]
    exact unlike (List.pairwise_iff_getElem.mp node.distinct j i hj hi before) text.symm

end CanonicalNode

/-- An operation within an expression has at least two operands, none of them an operation with its own
operator. They are in the order of the bytes of their texts, and where two have the same text they are
not alike, so that only blanks occur twice. -/
theorem operands_of_within {e : Expression} (built : e.Obtainable) {op : Operator}
    {operands : List Expression} (inside : e.Within (.operation op operands)) :
    2 ≤ operands.length ∧
      (∀ inner, .operation op inner ∉ operands) ∧
      (∀ i j (_ : i < operands.length) (_ : j < operands.length), i < j →
        ¬ Text.BytesBefore (operands[j].render).utf8 (operands[i].render).utf8) ∧
      (∀ i j (_ : i < operands.length) (_ : j < operands.length), i ≠ j →
        operands[i].render = operands[j].render → operands[i].alike operands[j] = false) ∧
      ∀ i j (_ : i < operands.length) (_ : j < operands.length), i ≠ j →
        operands[i] = operands[j] → operands[i] = .blank := by
  have node : CanonicalNode op operands := (built.canonical.of_within inside).node
  refine ⟨node.two_le, ?_, ?_, ?_, ?_⟩
  · intro inner mem
    exact node.flat _ mem inner rfl
  · intro i j _ hj before
    exact node.not_bytesBefore before hj
  · intro i j hi hj other text
    exact node.alike_eq_false hi hj other text
  · intro i j hi hj other same
    have unlike := node.alike_eq_false hi hj other (congrArg render same)
    rw [← same] at unlike
    exact eq_blank_of_not_alike_self unlike

/-- Two blanks stay side by side, and so do two assignments that only look the same. -/
theorem operands_of_within_odd_values :
    let a : Expression := .assignment ⟨"A".toList, "= B".toList, by decide, by decide⟩
    let b : Expression := .assignment ⟨"A =".toList, "B".toList, by decide, by decide⟩
    let operands : List Expression := [.blank, .blank, a, b]
    let e : Expression := .operation .or [.operation .and operands, a]
    e.Obtainable ∧ e.Within (.operation .and operands) ∧
      a.render = b.render ∧ a.alike b = false ∧ ¬ Text.BytesBefore (b.render).utf8 (a.render).utf8 := by
  intro a b operands e
  have inner : combine .and operands = .operation .and operands :=
    combine_of_canonicalNode ⟨by decide, by simp [operands, a, b], by decide, by decide⟩
  have outer : combine .or [.operation .and operands, a] = e :=
    combine_of_canonicalNode ⟨by decide, by simp [a], by decide, by decide⟩
  have each : ∀ x ∈ operands, x.Obtainable := by
    simp only [operands, List.mem_cons, List.not_mem_nil, or_false]
    rintro x (rfl | rfl | rfl | rfl)
    · exact .blank
    · exact .blank
    · exact .assignment _
    · exact .assignment _
  have built : e.Obtainable := by
    refine outer ▸ .combine _ _ ?_
    simp only [List.mem_cons, List.not_mem_nil, or_false]
    rintro x (rfl | rfl)
    · exact inner ▸ .combine _ _ each
    · exact .assignment _
  have inside : e.Within (.operation .and operands) := .operand (.head _) (.self _)
  obtain ⟨-, -, ordered, unlike, -⟩ := operands_of_within built inside
  exact ⟨built, inside, rfl, unlike 2 3 (by decide) (by decide) (by decide) rfl,
    ordered 2 3 (by decide) (by decide) (by decide)⟩

end ChoiceLogic.Expression
