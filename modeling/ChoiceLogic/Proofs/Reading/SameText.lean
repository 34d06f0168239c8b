import ChoiceLogic.Proofs.Reading.Legible

/-! # Expressions with the same text

Different expressions without blanks can have the same text, but then they differ in their leaves: with
the same leaves in the same order, the parentheses and operators between them show how they are put
together. And where every leaf is found again in the text, the text alone decides.
-/

namespace ChoiceLogic

open Markup

/-- The text of the assignment is found again wherever it is joined with others. -/
structure Assignment.Separable (a : Assignment) : Prop where
  legible : a.Legible
  apart : ¬ EndsInOperator a.render

namespace Expression

variable {p q : Assignment → Prop} {op o : Operator} {x y : Expression} {xs ys : List Expression}
  {r s : Text} {l m : List Assignment}

/-! ## The same leaves -/

/-- How many parentheses a text opens with. -/
def openings : Text → Nat
  | '(' :: t => openings t + 1
  | _ => 0

@[simp] theorem openings_cons (t : Text) : openings ('(' :: t) = openings t + 1 := rfl

theorem openings_append {t : Text} (ends : ∃ c ∈ t, c ≠ '(') (r : Text) :
    openings (t ++ r) = openings t := by
  fun_induction openings t with
  | case1 t ih =>
      obtain ⟨c, hc, other⟩ := ends
      have later : c ∈ t := (List.mem_cons.mp hc).resolve_left other
      rw [List.cons_append, openings_cons, ih ⟨c, later, other⟩]
  | case2 t other =>
      cases t with
      | nil => simp at ends
      | cons c t => simp [openings, show c ≠ '(' from fun same => other t (same ▸ rfl)]

theorem openings_render_append (a : Assignment) (r : Text) :
    openings (a.render ++ r) = openings a.render :=
  openings_append ⟨'=', a.sign_infix_render.subset (by decide), by decide⟩ r

theorem assignments_operation_cons (op : Operator) (x : Expression) (xs : List Expression) :
    (operation op (x :: xs)).assignments = x.assignments ++ xs.flatMap assignments := by
  rw [assignments, allAssignments, allAssignments_eq_flatMap]

/-- The text of an expression opens with the parentheses of the first leaf and those around it. -/
theorem exists_first_leaf (h : Over p x) (canonical : x.Canonical) :
    ∃ a others around, x.assignments = a :: others ∧
      ∀ r, openings (x.render ++ r) = openings a.render + around := by
  induction h with
  | @assignment a => exact ⟨a, [], 0, rfl, openings_render_append a⟩
  | @operation op operands each ih =>
      obtain ⟨x, rest, rfl⟩ := List.exists_cons_of_ne_nil canonical.node.ne_nil
      obtain ⟨a, others, around, leaves, opens⟩ := ih x (.head rest) (canonical.operands x (.head rest))
      refine ⟨a, others ++ rest.flatMap assignments, around + if x.isOperation then 1 else 0, ?_, ?_⟩
      · rw [assignments_operation_cons, leaves, List.cons_append]
      · intro r
        rw [render_operation_cons, List.append_assoc]
        unfold operandText
        split
        · rw [List.cons_append, openings_cons, List.append_assoc, opens, Nat.add_assoc]
        · rw [opens, Nat.add_zero]

/-- The text and the leaves of an operand show where it ends. -/
def Recognizable (x : Expression) : Prop :=
  ∀ y, Over (fun _ => True) y → y.Canonical → ∀ r s l m, x.operandText ++ r = y.operandText ++ s →
    x.assignments ++ l = y.assignments ++ m → x = y ∧ r = s ∧ l = m

theorem operands_append_inj (each : ∀ x ∈ xs, Recognizable x)
    (others : ∀ y ∈ ys, Over (fun _ => True) y) (canonical : ∀ y ∈ ys, y.Canonical)
    (text : xs.flatMap (fun x => op.separator ++ x.operandText) ++ ')' :: r =
      ys.flatMap (fun y => op.separator ++ y.operandText) ++ ')' :: s)
    (leaves : xs.flatMap assignments ++ l = ys.flatMap assignments ++ m) :
    xs = ys ∧ r = s ∧ l = m := by
  have blank (t u : Text) : op.separator ++ t ≠ ')' :: u := by
    simp [op.separator_eq]
  induction xs generalizing ys with
  | nil =>
      cases ys with
      | nil => exact ⟨rfl, (List.cons.inj text).2, leaves⟩
      | cons y ys =>
          rw [List.flatMap_cons, List.append_assoc, List.append_assoc] at text
          exact absurd text.symm (blank _ _)
  | cons x xs ih =>
      cases ys with
      | nil =>
          rw [List.flatMap_cons, List.append_assoc, List.append_assoc] at text
          exact absurd text (blank _ _)
      | cons y ys =>
          simp only [List.flatMap_cons, List.append_assoc] at text leaves
          obtain ⟨rfl, texts, after⟩ := each x (.head xs) y (others y (.head ys))
            (canonical y (.head ys)) _ _ _ _ (List.append_cancel_left text) leaves
          obtain ⟨rfl, rest⟩ := ih (fun z hz => each z (.tail x hz)) (fun z hz => others z (.tail x hz))
            (fun z hz => canonical z (.tail x hz)) texts after
          exact ⟨rfl, rest⟩

theorem operator_eq_of_separator_append_eq {t u : Text}
    (h : op.separator ++ t = o.separator ++ u) : op = o := by
  cases op <;> cases o <;> simp_all [Operator.separator]

/-- Where an operation stands, there is one parenthesis more than its first leaf opens with. -/
theorem render_append_ne_operandText {a : Assignment} (h : Over p (.operation op xs))
    (canonical : (operation op xs).Canonical)
    (leaves : a :: l = (operation op xs).assignments ++ m) :
    a.render ++ r ≠ (operation op xs).operandText ++ s := by
  intro text
  obtain ⟨b, others, around, first, opens⟩ := exists_first_leaf h canonical
  rw [first, List.cons_append] at leaves
  obtain rfl := (List.cons.inj leaves).1
  have count := congrArg openings text
  rw [openings_render_append, operandText_operation, List.cons_append, openings_cons,
    List.append_assoc, opens] at count
  omega

theorem recognizable (h : Over p x) (canonical : x.Canonical) : Recognizable x := by
  induction h with
  | @assignment a =>
      intro y hy cy r s l m text leaves
      rw [operandText_assignment] at text
      cases hy with
      | @assignment b =>
          obtain ⟨rfl, rest⟩ := List.cons.inj leaves
          rw [operandText_assignment] at text
          exact ⟨rfl, List.append_cancel_left text, rest⟩
      | operation each =>
          exact absurd text (render_append_ne_operandText (.operation each) cy leaves)
  | @operation op xs each ih =>
      intro y hy cy r s l m text leaves
      cases hy with
      | assignment =>
          rw [operandText_assignment] at text
          exact absurd text.symm
            (render_append_ne_operandText (.operation each) canonical leaves.symm)
      | @operation o ys others =>
          obtain ⟨x, x', xs, rfl⟩ := canonical.node.exists_operands
          obtain ⟨y, y', ys, rfl⟩ := cy.node.exists_operands
          have recognized (z : Expression) (hz : z ∈ x :: x' :: xs) : Recognizable z :=
            ih z hz (canonical.operands z hz)
          rw [operandText_operation, operandText_operation, render_operation_cons,
            render_operation_cons] at text
          simp only [List.cons_append, List.append_assoc, List.nil_append, List.cons.injEq,
            true_and] at text
          rw [assignments_operation_cons, assignments_operation_cons, List.append_assoc,
            List.append_assoc] at leaves
          obtain ⟨rfl, texts, rest⟩ := recognized x (.head _) y (others y (.head _))
            (cy.operands y (.head _)) _ _ _ _ text leaves
          obtain rfl : op = o := by
            rw [List.flatMap_cons, List.flatMap_cons] at texts
            simp only [List.append_assoc] at texts
            exact operator_eq_of_separator_append_eq texts
          obtain ⟨same, behind⟩ := operands_append_inj (fun z hz => recognized z (.tail x hz))
            (fun z hz => others z (.tail x hz)) (fun z hz => cy.operands z (.tail x hz)) texts rest
          exact ⟨by rw [same], behind⟩

theorem two_le_length_assignments (h : Over p (.operation op xs))
    (canonical : (operation op xs).Canonical) : 2 ≤ (operation op xs).assignments.length := by
  obtain ⟨x, y, rest, rfl⟩ := canonical.node.exists_operands
  cases h with
  | operation each =>
      obtain ⟨a, others, _, first, -⟩ := exists_first_leaf (each x (.head _))
        (canonical.operands x (.head _))
      obtain ⟨b, more, _, second, -⟩ := exists_first_leaf (each y (.tail x (.head _)))
        (canonical.operands y (.tail x (.head _)))
      simp only [assignments, allAssignments, first, second, List.length_append, List.length_cons]
      omega

/-- The text and the leaves of an expression without blanks tell all of it. -/
theorem eq_of_render_eq_of_assignments_eq (hx : Over p x) (hy : Over q y) (cx : x.Canonical)
    (cy : y.Canonical) (text : x.render = y.render) (leaves : x.assignments = y.assignments) :
    x = y := by
  have plain : Over (fun _ => True) y := hy.imp fun _ _ => trivial
  have counts := congrArg List.length leaves
  cases hx with
  | @assignment a =>
      cases hy with
      | assignment => rw [(List.cons.inj leaves).1]
      | operation each =>
          have many := two_le_length_assignments (.operation each) cy
          simp only [assignments, List.length_cons, List.length_nil] at counts many
          omega
  | operation each =>
      cases hy with
      | assignment =>
          have many := two_le_length_assignments (.operation each) cx
          simp only [assignments, List.length_cons, List.length_nil] at counts many
          omega
      | operation others =>
          have inside := recognizable (.operation each) cx _ plain cy [] [] [] []
          refine (inside ?_ (congrArg (· ++ []) leaves)).1
          rw [operandText_operation, operandText_operation, text]

/-! ## Leaves that are found again -/

theorem Over.legible_of_separable (h : Over Assignment.Separable x) : Over Assignment.Legible x :=
  h.imp fun _ ha => ha.legible

/-- The text of an operation falls apart into those of its operands. -/
theorem segments_render (h : Over Assignment.Separable (.operation op (x :: xs))) :
    segments (Token.scan (render (.operation op (x :: xs)))) =
      (x.operandText, xs.map fun e => (op, e.operandText)) := by
  cases h with
  | operation each =>
      have operands {t : Text} (ht : t ∈ (x :: xs).map operandText) :
          Balanced t ∧ Closed t ∧ ¬ EndsInOperator t := by
        obtain ⟨e, he, rfl⟩ := List.mem_map.mp ht
        have legible := (each e he).legible_of_separable
        exact ⟨legible.balanced_operandText, legible.closed_operandText,
          (each e he).not_endsInOperator fun _ ha => ha.apart⟩
      rw [render_operation, List.map_cons, segments_intercalate (fun t ht => (operands ht).1)
        (fun t ht => (operands ht).2.1)
        fun t ht => (operands ((List.dropLast_sublist _).mem ht)).2.2, List.map_map]
      rfl

theorem not_enclosed_of_legible {a : Assignment} (h : a.Legible) {t : Text} (balanced : Balanced t) :
    a.render ≠ '(' :: (t ++ [')']) := by
  intro enclosed
  have grouped := h.ungrouped
  rw [enclosed, group?_scan_enclosed balanced] at grouped
  cases grouped

theorem not_render_operation_of_legible {a : Assignment} (h : a.Legible)
    (canonical : (operation op xs).Canonical) : a.render ≠ render (.operation op xs) := by
  intro text
  have inside := separator_inside_render canonical
  exact Text.occurs_eq_false_iff.mp (h.noOperator op) (text ▸ inside)

theorem eq_of_operandText_eq (hx : Over Assignment.Separable x) (hy : Over Assignment.Separable y)
    (inner : x.render = y.render → x = y) (text : x.operandText = y.operandText) : x = y := by
  have balancedX := hx.legible_of_separable.balanced_render
  have balancedY := hy.legible_of_separable.balanced_render
  cases hx with
  | assignment ha =>
      rw [operandText_assignment] at text
      cases hy with
      | assignment =>
          rw [operandText_assignment] at text
          exact inner text
      | operation => exact absurd text (not_enclosed_of_legible ha.legible balancedY)
  | operation =>
      cases hy with
      | assignment hb =>
          rw [operandText_assignment] at text
          exact absurd text.symm (not_enclosed_of_legible hb.legible balancedX)
      | operation => exact inner (List.append_cancel_right (List.cons.inj text).2)

/-- Where all leaves are found again, the text of an expression tells all of it. -/
theorem eq_of_render_eq (hx : Over Assignment.Separable x) (hy : Over Assignment.Separable y)
    (cx : x.Canonical) (cy : y.Canonical) (text : x.render = y.render) : x = y := by
  induction hx generalizing y with
  | assignment ha =>
      cases hy with
      | assignment hb => rw [ha.legible.eq_of_render_eq hb.legible text]
      | operation => exact absurd text (not_render_operation_of_legible ha.legible cy)
  | @operation op xs each ih =>
      cases hy with
      | assignment hb => exact absurd text.symm (not_render_operation_of_legible hb.legible cx)
      | @operation o ys others =>
          obtain ⟨x, x', xs, rfl⟩ := cx.node.exists_operands
          obtain ⟨y, y', ys, rfl⟩ := cy.node.exists_operands
          have cuts := congrArg (fun t => segments (Token.scan t)) text
          simp only [segments_render (.operation each), segments_render (.operation others)] at cuts
          obtain ⟨first, later⟩ := Prod.mk.inj cuts
          obtain rfl : op = o := (Prod.mk.inj (List.cons.inj later).1).1
          have same (z : Expression) (hz : z ∈ x :: x' :: xs) (w : Expression)
              (hw : w ∈ y :: y' :: ys) (text : z.operandText = w.operandText) : z = w :=
            eq_of_operandText_eq (each z hz) (others w hw)
              (ih z hz (others w hw) (cx.operands z hz) (cy.operands w hw)) text
          rw [same x (.head _) y (.head _) first, Selection.eq_of_map_eq later fun z hz w hw pair =>
            same z (.tail _ hz) w (.tail _ hw) (Prod.mk.inj pair).2]

end Expression

end ChoiceLogic
