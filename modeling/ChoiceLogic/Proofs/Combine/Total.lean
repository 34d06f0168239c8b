import ChoiceLogic.Expression.Outline
import ChoiceLogic.Proofs.Combine.Flattening
import Mathlib.Algebra.Order.BigOperators.Group.List
import Mathlib.Algebra.Order.Ring.Nat

/-! # Totals

A measure of the operands, added up. Combining never adds to such a total: merging leaves it as it is
for every measure that counts an operation as its operands, sorting leaves it, and dropping repeats
takes something away wherever each operand counts for something.
-/

namespace ChoiceLogic.Selection

variable {α β : Type} {f g : α → Nat} {l m : List α}

theorem sum_map_flatMap (f : α → Nat) (h : β → List α) (l : List β) :
    ((l.flatMap h).map f).sum = (l.map fun b => ((h b).map f).sum).sum := by
  rw [List.map_flatMap, List.flatMap_def, List.sum_flatten, List.map_map]
  rfl

/-- Nothing that counts was dropped if the total did not fall. -/
theorem eq_of_sum_le_of_sublist (h : l.Sublist m) (pos : ∀ a ∈ m, 0 < f a)
    (same : (m.map f).sum ≤ (l.map f).sum) : l = m := by
  obtain ⟨dropped, perm⟩ := h.exists_perm_append
  have whole := (perm.map f).sum_eq
  rw [List.map_append, List.sum_append] at whole
  have none : dropped = [] := by
    refine List.eq_nil_iff_forall_not_mem.mpr fun a ha => ?_
    have counts := pos a (perm.mem_iff.mpr (List.mem_append_right l ha))
    have least := List.le_sum_of_mem (List.mem_map_of_mem (f := f) ha)
    omega
  rw [none, List.append_nil] at perm
  exact h.eq_of_length perm.length_eq.symm

/-- Where no part counts for more, and the whole not for less, each part counts for the same. -/
theorem eq_of_sum_le (h : ∀ a ∈ l, f a ≤ g a) (same : (l.map g).sum ≤ (l.map f).sum) :
    ∀ a ∈ l, f a = g a := by
  intro a ha
  by_contra differ
  have less := List.sum_lt_sum f g h ⟨a, ha, Nat.lt_of_le_of_ne (h a ha) differ⟩
  omega

end ChoiceLogic.Selection

namespace ChoiceLogic.Expression

open Selection

variable {op : Operator} {es : List Expression} {e : Expression} {f : Expression → Nat}

/-! ## Survivors -/

theorem survivors_perm_sublist (op : Operator) (es : List Expression) :
    ∃ kept, (survivors op es).Perm kept ∧ kept.Sublist (es.flatMap (operandsFor op)) := by
  rw [survivors_eq]
  exact ⟨_, sorted_perm render _, eraseDupsBy_sublist repeats _⟩

theorem combine_of_survivors_eq_nil (none : survivors op es = []) : combine op es = .blank := by
  rw [Expression.combine, none]

/-- The measure counts an operation with this operator as its operands. -/
def Additive (op : Operator) (f : Expression → Nat) : Prop :=
  ∀ operands, operands ≠ [] → f (.operation op operands) = (operands.map f).sum

theorem Additive.sum_operandsFor (additive : Additive op f) (h : e.Canonical) :
    ((operandsFor op e).map f).sum = f e := by
  cases e with
  | blank | assignment => simp [operandsFor]
  | operation o inner =>
      simp only [operandsFor]
      split
      · next same =>
          subst same
          exact (additive inner h.node.ne_nil).symm
      · simp

theorem Additive.sum_flatMap_operandsFor (additive : Additive op f) (h : ∀ e ∈ es, e.Canonical) :
    ((es.flatMap (operandsFor op)).map f).sum = (es.map f).sum := by
  rw [sum_map_flatMap]
  exact congrArg List.sum (List.map_congr_left fun e he => additive.sum_operandsFor (h e he))

theorem Additive.sum_survivors_le (additive : Additive op f) (h : ∀ e ∈ es, e.Canonical) :
    ((survivors op es).map f).sum ≤ (es.map f).sum := by
  obtain ⟨kept, perm, sub⟩ := survivors_perm_sublist op es
  rw [(perm.map f).sum_eq, ← additive.sum_flatMap_operandsFor h]
  exact (sub.map f).sum_le_sum fun _ _ => Nat.zero_le _

/-- No operand was a repeat if the total did not fall. -/
theorem Additive.survivors_perm (additive : Additive op f) (h : ∀ e ∈ es, e.Canonical)
    (pos : ∀ e, 0 < f e) (same : (es.map f).sum ≤ ((survivors op es).map f).sum) :
    (survivors op es).Perm (es.flatMap (operandsFor op)) := by
  obtain ⟨kept, perm, sub⟩ := survivors_perm_sublist op es
  rw [(perm.map f).sum_eq, ← additive.sum_flatMap_operandsFor h] at same
  exact eq_of_sum_le_of_sublist sub (fun e _ => pos e) same ▸ perm

theorem Additive.combine (additive : Additive op f) (nonempty : survivors op es ≠ []) :
    f (combine op es) = ((survivors op es).map f).sum := by
  rcases combine_cases op es with ⟨none, -⟩ | ⟨e, one, result⟩ | ⟨-, result⟩
  · exact absurd none nonempty
  · simp [result, one]
  · rw [result, additive _ nonempty]

/-! ## Leaves -/

/-- All leaves are assignments with a property. -/
inductive Over (p : Assignment → Prop) : Expression → Prop where
  | assignment {a : Assignment} (h : p a) : Over p (.assignment a)
  | operation {op : Operator} {operands : List Expression} (each : ∀ e ∈ operands, Over p e) :
      Over p (.operation op operands)

section Leaves

variable {p : Assignment → Prop}

theorem Over.imp {q : Assignment → Prop} (h : Over p e) (weaker : ∀ a, p a → q a) : Over q e := by
  induction h with
  | assignment h => exact .assignment (weaker _ h)
  | operation _ ih => exact .operation ih

theorem over_of_mem_flatMap (each : ∀ e ∈ es, Over p e) :
    ∀ e ∈ es.flatMap (operandsFor op), Over p e := by
  intro e he
  obtain ⟨x, hx, hex⟩ := List.mem_flatMap.mp he
  cases each x hx with
  | assignment h =>
      simp only [operandsFor, List.mem_singleton] at hex
      exact hex ▸ .assignment h
  | operation inner =>
      simp only [operandsFor] at hex
      split at hex
      · exact inner e hex
      · exact List.mem_singleton.mp hex ▸ .operation inner

theorem Over.combine (canonical : ∀ e ∈ es, e.Canonical) (each : ∀ e ∈ es, Over p e)
    (nonempty : es ≠ []) : Over p (combine op es) := by
  have kept (e : Expression) (he : e ∈ survivors op es) : Over p e :=
    over_of_mem_flatMap each e (mem_flatMap_of_mem_survivors he)
  rcases combine_cases op es with ⟨none, -⟩ | ⟨e, one, result⟩ | ⟨-, result⟩
  · exact absurd none (survivors_ne_nil canonical nonempty)
  · exact result ▸ kept e (by simp [one])
  · exact result ▸ .operation kept

theorem allAssignments_eq_flatMap (es : List Expression) :
    allAssignments es = es.flatMap assignments := by
  induction es with
  | nil => rfl
  | cons e es ih => rw [allAssignments, List.flatMap_cons, ih]

theorem assignments_operation (op : Operator) (operands : List Expression) :
    (operation op operands).assignments = operands.flatMap assignments := by
  rw [assignments, allAssignments_eq_flatMap]

theorem Over.mem_assignments (h : Over p e) : ∀ a ∈ e.assignments, p a := by
  induction h with
  | @assignment a h => simpa [assignments] using h
  | operation _ ih =>
      intro a ha
      rw [assignments_operation] at ha
      obtain ⟨x, hx, ha⟩ := List.mem_flatMap.mp ha
      exact ih x hx a ha

theorem Over.of_mem_assignments {q : Assignment → Prop} (h : Over p e)
    (each : ∀ a ∈ e.assignments, q a) : Over q e := by
  induction h with
  | assignment => exact .assignment (each _ (.head _))
  | @operation op operands _ ih =>
      refine .operation fun x hx => ih x hx fun a ha => each a ?_
      rw [assignments_operation]
      exact List.mem_flatMap.mpr ⟨x, hx, ha⟩

/-- A measure of the assignments, added up over the leaves. -/
def load (w : Assignment → Nat) (e : Expression) : Nat :=
  (e.assignments.map w).sum

variable (w : Assignment → Nat)

@[simp] theorem load_blank : load w .blank = 0 := rfl

@[simp] theorem load_assignment (a : Assignment) : load w (.assignment a) = w a := by
  simp [load, assignments]

theorem load_operation (op : Operator) (es : List Expression) :
    load w (.operation op es) = (es.map (load w)).sum := by
  rw [load, assignments_operation, sum_map_flatMap]
  rfl

theorem additive_load (op : Operator) : Additive op (load w) :=
  fun operands _ => load_operation w op operands

theorem load_combine_le (op : Operator) (h : ∀ e ∈ es, e.Canonical) :
    load w (combine op es) ≤ (es.map (load w)).sum := by
  have kept := (additive_load w op).sum_survivors_le h
  by_cases none : survivors op es = []
  · rw [combine_of_survivors_eq_nil none, load_blank]
    exact Nat.zero_le _
  · rwa [← (additive_load w op).combine none] at kept

/-- Every leaf is still there if no operand was dropped as a repeat. -/
theorem load_combine (h : ∀ e ∈ es, e.Canonical)
    (perm : (survivors op es).Perm (es.flatMap (operandsFor op))) :
    load w (combine op es) = (es.map (load w)).sum := by
  have whole : ((survivors op es).map (load w)).sum = (es.map (load w)).sum :=
    (perm.map (load w)).sum_eq.trans ((additive_load w op).sum_flatMap_operandsFor h)
  by_cases none : survivors op es = []
  · rw [← whole, none, combine_of_survivors_eq_nil none, load_blank]
    rfl
  · rw [(additive_load w op).combine none, whole]

end Leaves

end ChoiceLogic.Expression
