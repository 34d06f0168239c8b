import ChoiceLogic.Proofs.Combine.Total
import ChoiceLogic.Proofs.Reading.Plan

/-! # Legible expressions

An expression is legible when its text is cut, on every level, at the places where it was joined. An
assignment must stand for itself. An operation must have no operand, except the last, that ends in
the word of an operator, and no parentheses where all operands are assignments, because the text of
such an operation is read with its parentheses dropped.
-/

namespace ChoiceLogic

open Markup Reading

/-- The text of the assignment stands for the assignment. -/
structure Assignment.Legible (a : Assignment) : Prop where
  balanced : Balanced a.render
  ungrouped : group? (Token.scan a.render) = none
  noOperator : ∀ op : Operator, Text.occurs op.separator a.render = false
  parts : Text.cut Assignment.sign a.render = [a.family, a.value]

namespace Assignment

theorem trimmed_render (a : Assignment) : Text.Trimmed a.render :=
  a.family_trimmed.append a.value_trimmed sign

theorem sign_infix_render (a : Assignment) : sign <:+: a.render :=
  ⟨a.family, a.value, rfl⟩

theorem Legible.mark_notMem {a : Assignment} (h : a.Legible) (op : Operator) :
    .mark (.operator op) ∉ Token.scan a.render :=
  fun mem => Text.occurs_eq_false_iff.mp (h.noOperator op) (Token.infix_of_mark_mem_scan mem)

theorem Legible.eq_of_render_eq {a b : Assignment} (ha : a.Legible) (hb : b.Legible)
    (same : a.render = b.render) : a = b := by
  have parts : [a.family, a.value] = [b.family, b.value] := by rw [← ha.parts, ← hb.parts, same]
  simp only [List.cons.injEq, and_true] at parts
  exact ext_parts parts.1 parts.2

end Assignment

namespace Expression

variable {op : Operator} {es : List Expression} {e : Expression}

inductive Legible : Expression → Prop where
  | assignment {a : Assignment} (h : a.Legible) : Legible (.assignment a)
  | operation {op : Operator} {operands : List Expression} (node : CanonicalNode op operands)
      (each : ∀ e ∈ operands, Legible e)
      (apart : ∀ e ∈ operands.dropLast, ¬ EndsInOperator e.operandText)
      (bare : (∀ e ∈ operands, e.isOperation = false) → ∀ e ∈ operands, Bare e.render) :
      Legible (.operation op operands)

theorem apart_operandTexts (apart : ∀ e ∈ es.dropLast, ¬ EndsInOperator e.operandText) :
    ∀ p ∈ (es.map operandText).dropLast, ¬ EndsInOperator p := by
  rw [← List.map_dropLast]
  exact List.forall_mem_map.mpr apart

/-- What holds of a text with and without parentheses around it holds of the operand. -/
theorem of_operandText {p : Text → Prop} (plain : p e.render)
    (enclosed : p ('(' :: (e.render ++ [')']))) : p e.operandText := by
  unfold operandText
  split
  · exact enclosed
  · exact plain

theorem operandText_of_not_isOperation (h : e.isOperation = false) : e.operandText = e.render := by
  simp [operandText, h]

theorem render_operation_cons (op : Operator) (x : Expression) (xs : List Expression) :
    render (.operation op (x :: xs)) =
      x.operandText ++ xs.flatMap fun x => op.separator ++ x.operandText := by
  rw [render_operation, List.map_cons, Text.intercalate_cons_eq_flatMap, List.flatMap_map]

theorem separator_inside_render (canonical : (operation op es).Canonical) :
    op.separator <:+: render (.operation op es) := by
  obtain ⟨x, y, rest, rfl⟩ := canonical.node.exists_operands
  rw [render_operation_cons, List.flatMap_cons, List.append_assoc, ← List.append_assoc]
  exact ⟨x.operandText, _, rfl⟩

theorem Over.balanced_render (h : Over Assignment.Legible e) : Balanced e.render := by
  induction h with
  | assignment h => exact h.balanced
  | operation each ih =>
      rw [render_operation]
      refine Balanced.intercalate _ fun p hp => ?_
      obtain ⟨x, hx, rfl⟩ := List.mem_map.mp hp
      exact of_operandText (ih x hx) (ih x hx).enclosed

theorem Over.balanced_operandText (h : Over Assignment.Legible e) : Balanced e.operandText :=
  of_operandText h.balanced_render h.balanced_render.enclosed

theorem Over.closed_operandText (h : Over Assignment.Legible e) : Closed e.operandText := by
  cases h with
  | assignment h =>
      rw [operandText_assignment]
      exact closed_of_no_operator h.mark_notMem
  | operation each =>
      rw [operandText_operation]
      exact closed_enclosed (Over.operation each).balanced_render

theorem Over.not_endsInOperator {p : Assignment → Prop} (h : Over p e)
    (leaf : ∀ a, p a → ¬ EndsInOperator a.render) : ¬ EndsInOperator e.operandText := by
  cases h with
  | assignment h =>
      rw [operandText_assignment]
      exact leaf _ h
  | operation =>
      rw [operandText_operation]
      exact not_endsInOperator_enclosed _

theorem Over.sign_infix_render {p : Assignment → Prop} (h : Over p e) (canonical : e.Canonical) :
    Assignment.sign <:+: e.render := by
  induction h with
  | @assignment a _ => exact a.sign_infix_render
  | @operation op operands _ ih =>
      obtain ⟨x, mem⟩ := List.exists_mem_of_ne_nil operands canonical.node.ne_nil
      have inRender := ih x mem (canonical.operands x mem)
      have inOperand : Assignment.sign <:+: x.operandText :=
        of_operandText inRender (inRender.trans ⟨['('], [')'], rfl⟩)
      rw [render_operation]
      exact inOperand.trans (Text.infix_intercalate _ (List.mem_map_of_mem mem))

theorem Over.render_ne_nil {p : Assignment → Prop} (h : Over p e) (canonical : e.Canonical) :
    e.render ≠ [] := by
  intro nothing
  have sign := h.sign_infix_render canonical
  rw [nothing] at sign
  simp [Assignment.sign] at sign

namespace Legible

theorem over_legible (h : Legible e) : Over Assignment.Legible e := by
  induction h with
  | assignment h => exact .assignment h
  | operation node each apart bare ih => exact .operation ih

theorem canonical (h : Legible e) : e.Canonical := by
  induction h with
  | assignment => exact .assignment _
  | operation node each apart bare ih => exact .operation node ih

theorem trimmed_render (h : Legible e) : Text.Trimmed e.render := by
  induction h with
  | @assignment a _ => exact a.trimmed_render
  | @operation op operands node each apart bare ih =>
      rw [render_operation]
      refine Text.Trimmed.intercalate _ (by simpa using node.ne_nil) fun p hp => ?_
      obtain ⟨x, hx, rfl⟩ := List.mem_map.mp hp
      exact of_operandText (ih x hx) (Text.trimmed_enclosed _)

theorem trimmed_operandText (h : Legible e) : Text.Trimmed e.operandText :=
  of_operandText h.trimmed_render (Text.trimmed_enclosed _)

theorem balanced_render (h : Legible e) : Balanced e.render :=
  h.over_legible.balanced_render

theorem balanced_operandText (h : Legible e) : Balanced e.operandText :=
  h.over_legible.balanced_operandText

theorem sign_infix_render (h : Legible e) : Assignment.sign <:+: e.render :=
  h.over_legible.sign_infix_render h.canonical

theorem sign_infix_operandText (h : Legible e) : Assignment.sign <:+: e.operandText :=
  of_operandText h.sign_infix_render (h.sign_infix_render.trans ⟨['('], [')'], rfl⟩)

theorem closed_operandText (h : Legible e) : Closed e.operandText :=
  h.over_legible.closed_operandText

end Legible

end Expression

end ChoiceLogic
