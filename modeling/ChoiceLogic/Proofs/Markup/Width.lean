import ChoiceLogic.Proofs.Combine.Total
import ChoiceLogic.Proofs.Markup.Balance
import ChoiceLogic.Proofs.Text.Trim

/-! # Widths

The width of a text is its length without its parentheses. Trimming takes from the width of a text
just what it takes from the text, and a joined text is as wide as its parts and what joins them.
-/

namespace ChoiceLogic.Markup

open Selection Text

variable {op : Operator} {t u : Text} {ps : List Text}

def width (t : Text) : Nat :=
  (stripped t).length

theorem width_append (t u : Text) : width (t ++ u) = width t + width u := by
  rw [width, stripped_append, List.length_append]
  rfl

theorem width_of_bare (h : Bare t) : width t = t.length := by
  rw [width, stripped_of_bare h]

theorem stripped_stripped (t : Text) : stripped (stripped t) = stripped t :=
  stripped_of_bare (bare_stripped t)

theorem width_enclosed (t : Text) : width ('(' :: (t ++ [')'])) = width t := by
  rw [width, stripped_enclosed]
  rfl

theorem width_trim_le (t : Text) : width (trim t) ≤ width t := by
  obtain ⟨g, h, hg, hh, whole⟩ := padded_trim t
  have sum := congrArg width whole
  rw [width_append, width_append] at sum
  omega

theorem trim_eq_of_width_le (h : width t ≤ width (trim t)) : trim t = t := by
  obtain ⟨g, k, hg, hk, whole⟩ := padded_trim t
  have sum := congrArg width whole
  rw [width_append, width_append, width_of_bare (bare_of_blank hg),
    width_of_bare (bare_of_blank hk)] at sum
  have before : g = [] := List.eq_nil_of_length_eq_zero (by omega)
  have behind : k = [] := List.eq_nil_of_length_eq_zero (by omega)
  simpa [before, behind] using whole.symm

/-- The width of a text and of one operator beside it. -/
def extent (op : Operator) (t : Text) : Nat :=
  width t + op.separator.length

theorem extent_pos (op : Operator) (t : Text) : 0 < extent op t := by
  have pos : 0 < op.separator.length := Mark.text_length_pos (.operator op)
  unfold extent
  omega

/-- Where a measure of texts adds up, each part of a joined text counts with what joins it to the others,
and the last as if there were another one. -/
theorem sum_intercalate {f : Text → Nat} (append : ∀ u v, f (u ++ v) = f u + f v) (separator : Text)
    (nonempty : ps ≠ []) :
    (ps.map fun p => f p + f separator).sum = f (separator.intercalate ps) + f separator := by
  induction ps with
  | nil => exact absurd rfl nonempty
  | cons p ps ih =>
      cases ps with
      | nil => simp
      | cons q ps =>
          rw [List.map_cons, List.sum_cons, ih (List.cons_ne_nil q ps), List.intercalate_cons_cons,
            append, append]
          omega

theorem extent_intercalate (op : Operator) (nonempty : ps ≠ []) :
    extent op (op.separator.intercalate ps) = (ps.map (extent op)).sum := by
  have joined := sum_intercalate width_append op.separator nonempty
  rw [width_of_bare (bare_separator op)] at joined
  exact joined.symm

theorem sum_width_le (op : Operator) (ps : List Text) :
    (ps.map width).sum ≤ width (op.separator.intercalate ps) := by
  induction ps with
  | nil => exact Nat.zero_le _
  | cons p ps ih =>
      cases ps with
      | nil => simp
      | cons q ps =>
          rw [List.intercalate_cons_cons, width_append, width_append, List.map_cons, List.sum_cons]
          omega

theorem width_le_of_mem {p : Text} (op : Operator) (h : p ∈ ps) :
    width p ≤ width (op.separator.intercalate ps) :=
  Nat.le_trans (List.le_sum_of_mem (List.mem_map_of_mem h)) (sum_width_le op ps)

end ChoiceLogic.Markup

namespace ChoiceLogic.Expression

open Markup Selection

theorem stripped_operandText (e : Expression) : stripped e.operandText = stripped e.render := by
  unfold operandText
  split
  · exact stripped_enclosed _
  · rfl

theorem width_operandText (e : Expression) : width e.operandText = width e.render := by
  rw [width, stripped_operandText]
  rfl

/-- An operation is as wide as its operands and what joins them. -/
theorem additive_extent (op : Operator) : Additive op fun e => extent op e.render := by
  intro operands nonempty
  have some : operands.map operandText ≠ [] := by simpa using nonempty
  change extent op (render (.operation op operands)) = _
  rw [render_operation, extent_intercalate op some, List.map_map]
  refine congrArg List.sum (List.map_congr_left fun e _ => ?_)
  rw [Function.comp_apply, extent, width_operandText]
  rfl

end ChoiceLogic.Expression
