import ChoiceLogic.Expression.Combine
import ChoiceLogic.Proofs.Combine.Selection

/-! # Canonical expressions

An expression is canonical when each of its operations has at least two operands, none of them an
operation with the same operator, in ascending order of their texts and without repeats. Whatever
`combine` builds from canonical expressions is canonical again. On canonical expressions the loose
likeness that `combine` asks for repeats is an equivalence.
-/

namespace ChoiceLogic.Expression

/-! ## Texts of operands -/

/-- The text of an expression as an operand. -/
def operandText (e : Expression) : Text :=
  if e.isOperation then '(' :: (render e ++ [')']) else render e

theorem operandTexts_eq_map (es : List Expression) : operandTexts es = es.map operandText := by
  induction es with
  | nil => simp [operandTexts]
  | cons e es ih => simp [operandTexts, operandText, ih]

theorem render_operation (op : Operator) (es : List Expression) :
    render (.operation op es) = op.separator.intercalate (es.map operandText) := by
  rw [render, operandTexts_eq_map]

theorem operandText_operation (op : Operator) (es : List Expression) :
    operandText (.operation op es) = '(' :: (render (.operation op es) ++ [')']) := rfl

theorem operandText_assignment (a : Assignment) : operandText (.assignment a) = a.render := by
  simp [operandText, isOperation, render]

theorem render_inside_operandText (e : Expression) : e.render <:+: e.operandText := by
  unfold operandText
  split
  · exact ⟨['('], [')'], rfl⟩
  · exact List.infix_rfl

/-! ## Repeats -/

/-- The first repeats the second: same text, and alike. -/
def repeats (x y : Expression) : Bool :=
  x.render == y.render && y.alike x

theorem alike_comm (x y : Expression) : x.alike y = y.alike x := by
  cases x <;> cases y <;> simp [alike, Assignment.sharesPart, Bool.beq_comm]

theorem repeats_comm (x y : Expression) : x.repeats y = y.repeats x := by
  rw [repeats, repeats, alike_comm, Bool.beq_comm]

/-- Everything but a blank is like itself. -/
theorem eq_blank_of_not_alike_self {e : Expression} (h : e.alike e = false) : e = .blank := by
  cases e with
  | blank => rfl
  | assignment a => simp [alike, Assignment.sharesPart] at h
  | operation op operands => simp [alike] at h

theorem repeats_self {e : Expression} (filled : e ≠ .blank) : e.repeats e := by
  have same : e.alike e = true := by
    by_contra unlike
    exact filled (eq_blank_of_not_alike_self (eq_false_of_ne_true unlike))
  simp [repeats, same]

private theorem eraseDupsBy_map (es : List Expression) :
    (es.map Labelled.of).eraseDupsBy Labelled.repeats = (es.eraseDupsBy repeats).map Labelled.of := by
  induction es using Selection.unlike_induction repeats with
  | nil => rfl
  | cons e es ih =>
      have inner : Selection.unlike Labelled.repeats (Labelled.of e) (es.map Labelled.of) =
          (Selection.unlike repeats e es).map Labelled.of := List.filter_map ..
      rw [List.map_cons, Selection.eraseDupsBy_cons, Selection.eraseDupsBy_cons, inner, ih,
        List.map_cons]

/-- What is kept, said of the expressions alone. -/
theorem survivors_eq (op : Operator) (es : List Expression) :
    survivors op es =
      Selection.sorted render ((es.flatMap (operandsFor op)).eraseDupsBy repeats) := by
  let kept := (es.flatMap (operandsFor op)).eraseDupsBy repeats
  have labels : (kept.map Labelled.of).mergeSort Labelled.notAfter =
      (Selection.sorted render kept).map Labelled.of :=
    (List.map_mergeSort (f := Labelled.of) (s := Labelled.notAfter) fun _ _ _ _ => rfl).symm
  rw [survivors, eraseDupsBy_map, labels, List.map_map]
  exact List.map_id _

/-! ## The invariant -/

/-- What `combine` guarantees about an operator and its operands. -/
structure CanonicalNode (op : Operator) (operands : List Expression) : Prop where
  two_le : 2 ≤ operands.length
  flat : ∀ e ∈ operands, ∀ inner, e ≠ .operation op inner
  ascending : Selection.Ascending render operands
  distinct : operands.Pairwise fun x y => repeats y x = false

theorem CanonicalNode.exists_operands {op operands} (h : CanonicalNode op operands) :
    ∃ x y rest, operands = x :: y :: rest := by
  have two := h.two_le
  obtain ⟨x, others, rfl⟩ := List.exists_cons_of_length_pos (Nat.lt_of_lt_of_le Nat.two_pos two)
  obtain ⟨y, rest, rfl⟩ := List.exists_cons_of_length_pos (Nat.le_of_succ_le_succ two)
  exact ⟨x, y, rest, rfl⟩

theorem CanonicalNode.ne_nil {op operands} (h : CanonicalNode op operands) : operands ≠ [] := by
  obtain ⟨x, y, rest, rfl⟩ := h.exists_operands
  exact List.cons_ne_nil _ _

inductive Canonical : Expression → Prop where
  | blank : Canonical .blank
  | assignment (a : Assignment) : Canonical (.assignment a)
  | operation {op : Operator} {operands : List Expression} (node : CanonicalNode op operands)
      (each : ∀ e ∈ operands, Canonical e) : Canonical (.operation op operands)

theorem Canonical.node {op operands} (h : Canonical (.operation op operands)) :
    CanonicalNode op operands := by
  cases h with
  | operation node _ => exact node

theorem Canonical.operands {op operands} (h : Canonical (.operation op operands)) :
    ∀ e ∈ operands, Canonical e := by
  cases h with
  | operation _ each => exact each

/-! ## Repeats among canonical expressions -/

/-- What canonical expressions have in common exactly if they repeat each other. -/
inductive Identity where
  | assignment (a : Assignment)
  | operation (op : Operator) (text : Text)
  deriving DecidableEq

def identity? : Expression → Option Identity
  | .blank => none
  | .assignment a => some (.assignment a)
  | .operation op operands => some (.operation op (render (.operation op operands)))

private theorem eq_of_sharesPart {a b : Assignment} (text : a.render = b.render)
    (part : a.sharesPart b) : a = b := by
  simp only [Assignment.render, List.append_assoc] at text
  simp only [Assignment.sharesPart, Bool.or_eq_true, beq_iff_eq] at part
  rcases part with family | value
  · rw [family] at text
    exact Assignment.ext_parts family
      (List.append_cancel_left (List.append_cancel_left text))
  · rw [value] at text
    exact Assignment.ext_parts (List.append_cancel_right text) value

/-- A separator of `and` is one character longer than one of `or`. -/
private theorem length_intercalate_and (texts : List Text) :
    (Operator.and.separator.intercalate texts).length =
      (Operator.or.separator.intercalate texts).length + (texts.length - 1) := by
  induction texts with
  | nil => rfl
  | cons t texts ih =>
      cases texts with
      | nil => simp
      | cons u texts =>
          have and_length : Operator.and.separator.length = 5 := rfl
          have or_length : Operator.or.separator.length = 4 := rfl
          simp only [List.intercalate_cons_cons, List.length_append, List.length_cons] at ih ⊢
          omega

/-- The same operands make different texts with different operators. -/
theorem operator_eq_of_render_eq {o p : Operator} {operands : List Expression}
    (two : 2 ≤ operands.length)
    (text : render (.operation o operands) = render (.operation p operands)) : o = p := by
  have lengths := congrArg List.length text
  have longer := length_intercalate_and (operands.map operandText)
  simp only [render_operation] at lengths
  rw [List.length_map] at longer
  cases o <;> cases p <;> first | rfl | omega

theorem repeats_iff {x y : Expression} (hx : x.Canonical) :
    x.repeats y ↔ x.identity?.isSome ∧ x.identity? = y.identity? := by
  simp only [repeats, Bool.and_eq_true, beq_iff_eq]
  cases x with
  | blank => cases y <;> simp [alike, identity?]
  | assignment a =>
      cases y with
      | blank | operation => simp [alike, identity?]
      | assignment b =>
          simp only [alike, identity?, Option.isSome_some, Option.some.injEq, Identity.assignment.injEq,
            true_and, render]
          constructor
          · rintro ⟨text, part⟩
            exact (eq_of_sharesPart text.symm part).symm
          · rintro rfl
            simp [Assignment.sharesPart]
  | operation o operands =>
      cases y with
      | blank | assignment => simp [alike, identity?]
      | operation p others =>
          simp only [alike, identity?, Option.isSome_some, Option.some.injEq, Identity.operation.injEq,
            true_and, Bool.or_eq_true, beq_iff_eq]
          constructor
          · rintro ⟨text, rfl | rfl⟩
            · exact ⟨rfl, text⟩
            · exact ⟨operator_eq_of_render_eq hx.node.two_le text, text⟩
          · rintro ⟨rfl, text⟩
            exact ⟨text, .inl rfl⟩

/-- The test for repeats, made on what is compared in the end. -/
def sameIdentity (x y : Expression) : Bool :=
  x.identity?.isSome && x.identity? = y.identity?

theorem repetition_sameIdentity : Selection.Repetition sameIdentity where
  symm h := by
    simp only [sameIdentity, Bool.and_eq_true, decide_eq_true_eq] at h ⊢
    exact ⟨h.2 ▸ h.1, h.2.symm⟩
  trans hab hbc := by
    simp only [sameIdentity, Bool.and_eq_true, decide_eq_true_eq] at hab hbc ⊢
    exact ⟨hab.1, hab.2.trans hbc.2⟩

theorem render_eq_of_sameIdentity {x y : Expression} (h : x.sameIdentity y) :
    x.render = y.render := by
  simp only [sameIdentity, Bool.and_eq_true, decide_eq_true_eq] at h
  cases x with
  | blank => simp [identity?] at h
  | assignment a =>
      cases y with
      | blank | operation => simp [identity?] at h
      | assignment b =>
          simp only [identity?, Option.some.injEq, Identity.assignment.injEq] at h
          rw [h.2]
  | operation o xs =>
      cases y with
      | blank | assignment => simp [identity?] at h
      | operation p ys =>
          simp only [identity?, Option.some.injEq, Identity.operation.injEq] at h
          exact h.2.2

theorem repeats_eq_sameIdentity {x y : Expression} (hx : x.Canonical) :
    x.repeats y = x.sameIdentity y := by
  rw [Bool.eq_iff_iff, repeats_iff hx, sameIdentity, Bool.and_eq_true, decide_eq_true_eq]

theorem eraseDupsBy_repeats {es : List Expression} (h : ∀ e ∈ es, e.Canonical) :
    es.eraseDupsBy repeats = es.eraseDupsBy sameIdentity :=
  Selection.eraseDupsBy_congr fun x hx _ _ => repeats_eq_sameIdentity (h x hx)

/-! ## Combining keeps the invariant -/

section Combining

variable {op : Operator} {es : List Expression}

theorem mem_flatMap_of_mem_survivors {e : Expression} (h : e ∈ survivors op es) :
    e ∈ es.flatMap (operandsFor op) := by
  rw [survivors_eq] at h
  exact (Selection.eraseDupsBy_sublist _ _).mem ((Selection.sorted_perm _ _).mem_iff.mp h)

theorem canonical_of_mem_flatMap (h : ∀ e ∈ es, e.Canonical) :
    ∀ e ∈ es.flatMap (operandsFor op), e.Canonical := by
  intro e he
  obtain ⟨x, hx, hex⟩ := List.mem_flatMap.mp he
  cases x with
  | blank => simp only [operandsFor, List.mem_singleton] at hex; rw [hex]; exact .blank
  | assignment a => simp only [operandsFor, List.mem_singleton] at hex; rw [hex]; exact .assignment a
  | operation o operands =>
      simp only [operandsFor] at hex
      split at hex
      · exact (h _ hx).operands e hex
      · rw [List.mem_singleton.mp hex]
        exact h _ hx

/-- One step of merging is enough: the operands that are merged in are themselves flat. -/
theorem flat_of_mem_flatMap (h : ∀ e ∈ es, e.Canonical) :
    ∀ e ∈ es.flatMap (operandsFor op), ∀ inner, e ≠ .operation op inner := by
  intro e he
  obtain ⟨x, hx, hex⟩ := List.mem_flatMap.mp he
  cases x with
  | blank | assignment => simp only [operandsFor, List.mem_singleton] at hex; rw [hex]; simp
  | operation o operands =>
      simp only [operandsFor] at hex
      split at hex
      · next same => exact same ▸ (h _ hx).node.flat e hex
      · next other =>
          rw [List.mem_singleton.mp hex]
          intro inner same
          exact other (Expression.operation.inj same).1

theorem ascending_survivors : Selection.Ascending render (survivors op es) :=
  survivors_eq op es ▸ Selection.ascending_sorted render _

theorem distinct_survivors : (survivors op es).Pairwise fun x y => repeats y x = false := by
  rw [survivors_eq]
  refine (List.Perm.pairwise_iff (fun {x y} hxy => ?_) (Selection.sorted_perm render _)).mpr
    (Selection.pairwise_eraseDupsBy repeats _)
  rwa [repeats_comm]

theorem canonicalNode_survivors (h : ∀ e ∈ es, e.Canonical) (two : 2 ≤ (survivors op es).length) :
    CanonicalNode op (survivors op es) where
  two_le := two
  flat e he := flat_of_mem_flatMap h e (mem_flatMap_of_mem_survivors he)
  ascending := ascending_survivors
  distinct := distinct_survivors

/-- The three outcomes of combining. -/
theorem combine_cases (op : Operator) (es : List Expression) :
    (survivors op es = [] ∧ combine op es = .blank) ∨
    (∃ e, survivors op es = [e] ∧ combine op es = e) ∨
    (2 ≤ (survivors op es).length ∧ combine op es = .operation op (survivors op es)) := by
  unfold combine
  split
  · next none => exact .inl ⟨none, rfl⟩
  · next e one => exact .inr (.inl ⟨e, one, rfl⟩)
  · next many notNone notOne =>
      refine .inr (.inr ⟨?_, rfl⟩)
      match survivors op es, notNone, notOne with
      | [], notNone, _ => exact absurd rfl notNone
      | [e], _, notOne => exact absurd rfl (notOne e)
      | _ :: _ :: _, _, _ => simp

theorem Canonical.combine (h : ∀ e ∈ es, e.Canonical) : (combine op es).Canonical := by
  have kept (e : Expression) (he : e ∈ survivors op es) : e.Canonical :=
    canonical_of_mem_flatMap h e (mem_flatMap_of_mem_survivors he)
  rcases combine_cases op es with ⟨-, result⟩ | ⟨e, one, result⟩ | ⟨two, result⟩
  · exact result ▸ .blank
  · exact result ▸ kept e (by simp [one])
  · exact result ▸ .operation (canonicalNode_survivors h two) kept

end Combining

/-- Built from the leaves up, whatever the leaves. -/
inductive Obtainable : Expression → Prop where
  | blank : Obtainable .blank
  | assignment (a : Assignment) : Obtainable (.assignment a)
  | combine (op : Operator) (es : List Expression) (each : ∀ e ∈ es, Obtainable e) :
      Obtainable (combine op es)

theorem Obtainable.canonical {e : Expression} (h : e.Obtainable) : e.Canonical := by
  induction h with
  | blank => exact .blank
  | assignment a => exact .assignment a
  | combine op es _ ih => exact Canonical.combine ih

end ChoiceLogic.Expression
