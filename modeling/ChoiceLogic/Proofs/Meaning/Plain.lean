import ChoiceLogic.Proofs.Grammar.Layout
import ChoiceLogic.Proofs.Reading.Rereadable
import ChoiceLogic.Proofs.Reading.SameText

/-! # Expressions over plain assignments

A plain assignment looks like nothing else, not even next to other text. Expressions over plain
assignments repeat each other only if they are equal, so combining them drops nothing that is not there
a second time.
-/

namespace ChoiceLogic

open Markup

/-- Neither part has a parenthesis, nor a sign or an operator even with a space on each side. -/
structure Assignment.Plain (a : Assignment) : Prop where
  bare : Bare a.family ∧ Bare a.value
  noSign : Text.occurs sign (Text.spaced a.family) = false ∧
    Text.occurs sign (Text.spaced a.value) = false
  noOperator : ∀ op : Operator, Text.occurs op.separator (Text.spaced a.family) = false ∧
    Text.occurs op.separator (Text.spaced a.value) = false

namespace Assignment.Plain

variable {a : Assignment}

/-- The assignment as a leaf of a sentence, without blanks of its own. -/
def leaf (h : a.Plain) : Grammar.Leaf where
  before := .none
  family := ⟨a.family, a.family_trimmed, h.bare.1, h.noSign.1, fun op => (h.noOperator op).1⟩
  left := .none
  right := .none
  value := ⟨a.value, a.value_trimmed, h.bare.2, h.noSign.2, fun op => (h.noOperator op).2⟩
  behind := .none

theorem text_leaf (h : a.Plain) : h.leaf.text = a.render := by
  simp [Grammar.Leaf.text, Grammar.Leaf.operand, Grammar.Operand.text, leaf, Grammar.Gap.none, render]

theorem rereadable (h : a.Plain) : a.Rereadable where
  bare := h.text_leaf ▸ h.leaf.bare
  noOperator := by
    intro op
    rw [Text.occurs_eq_false_iff, op.separator_eq_spaced, ← h.text_leaf]
    exact (h.leaf.absent_operator op).not_inside
  apart := h.text_leaf ▸ h.leaf.not_endsInOperator
  parts := by
    have cut := h.leaf.cut_operand
    have whole := h.text_leaf
    simp only [Grammar.Leaf.text, leaf, Grammar.Gap.none, List.nil_append, List.append_nil] at whole cut
    rw [← whole]
    exact cut

theorem separable (h : a.Plain) : a.Separable :=
  ⟨h.rereadable.legible, h.rereadable.apart⟩

end Assignment.Plain

namespace Expression

variable {op : Operator} {es : List Expression} {x y : Expression}

theorem eq_of_repeats (hx : Over Assignment.Separable x) (hy : Over Assignment.Separable y)
    (cx : x.Canonical) (cy : y.Canonical) (h : x.repeats y) : x = y := by
  simp only [repeats, Bool.and_eq_true, beq_iff_eq] at h
  exact eq_of_render_eq hx hy cx cy h.1

/-- No operand is lost: one that is dropped as a repeat is equal to one that stays. -/
theorem mem_survivors_iff (canonical : ∀ e ∈ es, e.Canonical)
    (leaves : ∀ e ∈ es, Over Assignment.Separable e) :
    x ∈ survivors op es ↔ x ∈ es.flatMap (operandsFor op) := by
  have each : ∀ e ∈ es.flatMap (operandsFor op), e.Canonical ∧ Over Assignment.Separable e :=
    fun e he => ⟨canonical_of_mem_flatMap canonical e he, over_of_mem_flatMap leaves e he⟩
  rw [survivors_eq, (Selection.sorted_perm render _).mem_iff]
  apply Selection.mem_eraseDupsBy
  intro y hy z hz repeated
  exact eq_of_repeats (each z hz).2 (each y hy).2 (each z hz).1 (each y hy).1 repeated

end Expression

end ChoiceLogic
