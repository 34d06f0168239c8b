import ChoiceLogic.Proofs.Meaning.Plain

/-! # What expressions say

An expression is true or false once it is settled which assignments hold. Combining expressions over
plain assignments under an operator gives the conjunction or the disjunction of what they say: merging,
sorting, dropping repeats and unwrapping change the form only.
-/

namespace ChoiceLogic

namespace Operator

/-- Whether all of these hold, or some of them do. -/
def join : Operator → List Bool → Bool
  | .and, bs => bs.all id
  | .or, bs => bs.any id

@[simp] theorem join_singleton (op : Operator) (b : Bool) : op.join [b] = b := by
  cases op <;> simp [join]

/-- Order and repeats do not matter. -/
theorem join_congr (op : Operator) {bs cs : List Bool} (h : ∀ b, b ∈ bs ↔ b ∈ cs) :
    op.join bs = op.join cs := by
  cases op with
  | and =>
      rw [join, join, Bool.eq_iff_iff, List.all_eq_true, List.all_eq_true]
      simp only [h]
  | or =>
      rw [join, join, Bool.eq_iff_iff, List.any_eq_true, List.any_eq_true]
      simp only [h]

/-- What is joined may be joined in groups first. -/
theorem join_flatMap {α : Type} (op : Operator) (f : α → List Bool) (as : List α) :
    op.join (as.flatMap f) = op.join (as.map fun a => op.join (f a)) := by
  cases op with
  | and => simp only [join, List.all_flatMap, List.all_map, Function.comp_def, id]
  | or => simp only [join, List.any_flatMap, List.any_map, Function.comp_def, id]

end Operator

namespace Expression

variable {op : Operator} {es : List Expression}

mutual
/-- Whether the expression holds where this settles which values hold for which families. A blank asks
for nothing. -/
def truth (holds : Text → Text → Bool) : Expression → Bool
  | .blank => true
  | .assignment a => holds a.family a.value
  | .operation op operands => op.join (truths holds operands)

def truths (holds : Text → Text → Bool) : List Expression → List Bool
  | [] => []
  | e :: rest => truth holds e :: truths holds rest
end

variable (holds : Text → Text → Bool)

theorem truths_eq_map (es : List Expression) : truths holds es = es.map (truth holds) := by
  induction es with
  | nil => rfl
  | cons e es ih => rw [truths, ih, List.map_cons]

@[simp] theorem truth_operation (op : Operator) (operands : List Expression) :
    truth holds (.operation op operands) = op.join (operands.map (truth holds)) := by
  rw [truth, truths_eq_map]

theorem join_operandsFor (op : Operator) (e : Expression) :
    op.join ((operandsFor op e).map (truth holds)) = truth holds e := by
  cases e with
  | blank => exact op.join_singleton _
  | assignment a => exact op.join_singleton _
  | operation o operands =>
      simp only [operandsFor]
      split
      · next same => rw [truth_operation, same]
      · exact op.join_singleton _

theorem join_flatMap_operandsFor (op : Operator) (es : List Expression) :
    op.join ((es.flatMap (operandsFor op)).map (truth holds)) = op.join (es.map (truth holds)) := by
  rw [List.map_flatMap, op.join_flatMap]
  simp only [join_operandsFor]

/-- What a combination says is what its survivors say together. -/
theorem truth_combine_eq_join_survivors (some : survivors op es ≠ []) :
    (combine op es).truth holds = op.join ((survivors op es).map (truth holds)) := by
  rcases combine_cases op es with ⟨none, -⟩ | ⟨e, one, result⟩ | ⟨-, result⟩
  · exact absurd none some
  · rw [result, one, List.map_singleton, op.join_singleton]
  · rw [result, truth_operation]

/-- Combining means the operator: the combination of expressions over plain assignments holds just
where all of them hold, or where some of them do. -/
theorem truth_combine (op : Operator) (es : List Expression) (some : es ≠ [])
    (built : ∀ e ∈ es, BuiltFrom Assignment.Plain e) :
    (combine op es).truth holds = op.join (es.map (truth holds)) := by
  have canonical : ∀ e ∈ es, e.Canonical := fun e he => (built e he).canonical
  have separable : ∀ e ∈ es, Over Assignment.Separable e :=
    fun e he => (built e he).over.imp fun _ plain => plain.separable
  have members (b : Bool) : b ∈ (survivors op es).map (truth holds) ↔
      b ∈ (es.flatMap (operandsFor op)).map (truth holds) := by
    simp only [List.mem_map, mem_survivors_iff canonical separable]
  calc (combine op es).truth holds
      = op.join ((survivors op es).map (truth holds)) :=
        truth_combine_eq_join_survivors holds (survivors_ne_nil canonical some)
    _ = op.join ((es.flatMap (operandsFor op)).map (truth holds)) := op.join_congr members
    _ = op.join (es.map (truth holds)) := join_flatMap_operandsFor holds op es

/-- The repeated assignment is dropped and the conjunction is merged in. -/
theorem truth_combine_repeated :
    let ham : Expression := .assignment ⟨"Topping".toList, "ham".toList, by decide, by decide⟩
    let thin : Expression := .assignment ⟨"Crust".toList, "thin".toList, by decide, by decide⟩
    let none : Expression := .assignment ⟨"Topping".toList, "none".toList, by decide, by decide⟩
    let es : List Expression :=
      [.operation .and [thin, ham], ham, .operation .or [thin, none]]
    let holds (family value : Text) : Bool := (family, value) ≠ ("Topping".toList, "none".toList)
    es ≠ [] ∧ (∀ e ∈ es, BuiltFrom Assignment.Plain e) ∧ (combine .and es).truth holds = true := by
  intro ham thin none es holds
  have leaf (a : Assignment) (plain : a.Plain) : BuiltFrom Assignment.Plain (.assignment a) :=
    .assignment a plain
  have pair (op : Operator) (x y : Expression) (hx : BuiltFrom Assignment.Plain x)
      (hy : BuiltFrom Assignment.Plain y) (node : CanonicalNode op [x, y]) :
      BuiltFrom Assignment.Plain (.operation op [x, y]) :=
    combine_of_canonicalNode node ▸ .combine op [x, y] (by simp) (by simp [hx, hy])
  have builtHam : BuiltFrom Assignment.Plain ham := leaf _ ⟨by decide, by decide, by decide⟩
  have builtThin : BuiltFrom Assignment.Plain thin := leaf _ ⟨by decide, by decide, by decide⟩
  have builtNone : BuiltFrom Assignment.Plain none := leaf _ ⟨by decide, by decide, by decide⟩
  have built : ∀ e ∈ es, BuiltFrom Assignment.Plain e := by
    simp only [es, List.mem_cons, List.not_mem_nil, or_false]
    rintro e (rfl | rfl | rfl)
    · exact pair .and thin ham builtThin builtHam
        ⟨by decide, by simp [thin, ham], by decide, by decide⟩
    · exact builtHam
    · exact pair .or thin none builtThin builtNone
        ⟨by decide, by simp [thin, none], by decide, by decide⟩
  refine ⟨by simp [es], built, ?_⟩
  rw [truth_combine holds .and es (by simp [es]) built]
  decide

end Expression

end ChoiceLogic
