import ChoiceLogic.Proofs.Combine.Total
import ChoiceLogic.Proofs.Reading.RoundTrip

/-! # Expressions over re-readable assignments

An assignment is re-readable when it can stand anywhere in a text: it has no parentheses, no operator
inside or at its end, and it is cut at its own sign. Whatever is combined from re-readable assignments
is legible, so its text is read as itself wherever the limits allow.
-/

namespace ChoiceLogic

open Markup Reading

structure Assignment.Rereadable (a : Assignment) : Prop where
  bare : Bare a.render
  noOperator : ∀ op : Operator, Text.occurs op.separator a.render = false
  apart : ¬ EndsInOperator a.render
  parts : Text.cut Assignment.sign a.render = [a.family, a.value]

theorem Assignment.Rereadable.legible {a : Assignment} (h : a.Rereadable) : a.Legible where
  balanced := balanced_of_bare h.bare
  ungrouped := by
    have bare := h.bare
    cases grouped : group? (Token.scan a.render) with
    | none => rfl
    | some inner =>
        rw [eq_of_group? grouped] at bare
        exact absurd rfl (bare '(' (.head _)).1
  noOperator := h.noOperator
  parts := h.parts

namespace Expression

variable {p : Assignment → Prop} {op : Operator} {es : List Expression} {e : Expression}

/-- Built by combining, from assignments with a property and nothing else. -/
inductive BuiltFrom (p : Assignment → Prop) : Expression → Prop where
  | assignment (a : Assignment) (h : p a) : BuiltFrom p (.assignment a)
  | combine (op : Operator) (es : List Expression) (nonempty : es ≠ [])
      (each : ∀ e ∈ es, BuiltFrom p e) : BuiltFrom p (combine op es)

theorem BuiltFrom.canonical (h : BuiltFrom p e) : e.Canonical := by
  induction h with
  | assignment a _ => exact .assignment a
  | combine op es _ _ ih => exact Canonical.combine ih

theorem BuiltFrom.over (h : BuiltFrom p e) : Over p e := by
  induction h with
  | assignment a h => exact .assignment h
  | combine op es nonempty each ih =>
      exact Over.combine (fun e he => (each e he).canonical) ih nonempty

theorem Over.legible (h : Over Assignment.Rereadable e) (canonical : e.Canonical) : Legible e := by
  induction h with
  | assignment h => exact .assignment h.legible
  | operation each ih =>
      refine .operation canonical.node (fun e he => ih e he (canonical.operands e he)) ?_ ?_
      · intro e he
        exact (each e ((List.dropLast_sublist _).mem he)).not_endsInOperator fun _ h => h.apart
      · intro leaves e he
        cases each e he with
        | assignment h => exact h.bare
        | operation => cases leaves _ he

/-- The text of the expression is read as the expression just where the levels suffice, and is
rejected as too deep everywhere else. -/
theorem read_render (t : Expression) (built : t = .blank ∨ BuiltFrom Assignment.Rereadable t)
    (limits : Limits) (fits : t.render.byteSize ≤ limits.maxBytes) :
    (read limits t.render).result =
      if t.levelsNeeded ≤ limits.maxDepth then .ok t else .error (.tooDeep limits.maxDepth) := by
  refine read_render_of_legible ?_ fits
  rcases built with blank | built
  · exact .inl blank
  · exact .inr (built.over.legible built.canonical)

/-- Two operations, one inside the other, take two levels. -/
theorem read_render_two_levels :
    let ham : Expression := .assignment ⟨"Topping".toList, "ham".toList, by decide, by decide⟩
    let none : Expression := .assignment ⟨"Topping".toList, "none".toList, by decide, by decide⟩
    let thin : Expression := .assignment ⟨"Crust".toList, "thin".toList, by decide, by decide⟩
    let t : Expression := .operation .and [thin, .operation .or [ham, none]]
    BuiltFrom Assignment.Rereadable t ∧ t.render.byteSize ≤ 100 ∧
      (read ⟨2, 100⟩ t.render).result = .ok t ∧
      (read ⟨1, 100⟩ t.render).result = .error (.tooDeep 1) := by
  intro ham none thin t
  have inner : combine .or [ham, none] = .operation .or [ham, none] :=
    combine_of_canonicalNode ⟨by decide, by simp [ham, none], by decide, by decide⟩
  have outer : combine .and [thin, .operation .or [ham, none]] = t :=
    combine_of_canonicalNode ⟨by decide, by simp [thin], by decide, by decide⟩
  have leaf (a : Assignment) (h : a.Rereadable) : BuiltFrom Assignment.Rereadable (.assignment a) :=
    .assignment a h
  have toppings : BuiltFrom Assignment.Rereadable (.operation .or [ham, none]) := by
    refine inner ▸ .combine _ _ (by simp) ?_
    simp only [List.mem_cons, List.not_mem_nil, or_false]
    rintro e (rfl | rfl)
    · exact leaf _ ⟨by decide, by decide, by decide, by decide⟩
    · exact leaf _ ⟨by decide, by decide, by decide, by decide⟩
  have built : BuiltFrom Assignment.Rereadable t := by
    refine outer ▸ .combine _ _ (by simp) ?_
    simp only [List.mem_cons, List.not_mem_nil, or_false]
    rintro e (rfl | rfl)
    · exact leaf _ ⟨by decide, by decide, by decide, by decide⟩
    · exact toppings
  have fits : t.render.byteSize ≤ 100 := by decide
  have needed : t.levelsNeeded = 2 := by decide
  refine ⟨built, fits, ?_, ?_⟩
  · have := read_render t (.inr built) ⟨2, 100⟩ fits
    simpa [needed] using this
  · have := read_render t (.inr built) ⟨1, 100⟩ fits
    simpa [needed] using this

end Expression

end ChoiceLogic
