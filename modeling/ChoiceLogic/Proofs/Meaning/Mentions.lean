import ChoiceLogic.Proofs.Meaning.Plain

/-! # What expressions mention

Combining expressions over plain assignments neither loses an assignment nor makes one up, so what the
combination refers to is what its operands refer to. An operand that is dropped as a repeat is no loss,
because it is equal to one that stays.
-/

namespace ChoiceLogic

namespace Text

theorem nodup_sortDistinct (ts : List Text) : (sortDistinct ts).Nodup := by
  have unequal : (ts.eraseDupsBy (· == ·)).Pairwise fun s t => (t == s) = false :=
    Selection.pairwise_eraseDupsBy _ ts
  have distinct : ts.eraseDups.Nodup :=
    unequal.imp fun other same => absurd other (by simp [same])
  exact (List.mergeSort_perm _ _).nodup_iff.mpr distinct

theorem ascending_sortDistinct (ts : List Text) : Selection.Ascending id (sortDistinct ts) :=
  Selection.ascending_sorted id ts.eraseDups

/-- There is one ascending list of the same texts without repeats. -/
theorem sortDistinct_eq_iff {ts us : List Text} :
    sortDistinct ts = us ↔ (∀ t, t ∈ ts ↔ t ∈ us) ∧ us.Nodup ∧ Selection.Ascending id us := by
  constructor
  · rintro rfl
    exact ⟨fun t => mem_sortDistinct.symm, nodup_sortDistinct ts, ascending_sortDistinct ts⟩
  · rintro ⟨same, distinct, ascending⟩
    have perm : (sortDistinct ts).Perm us :=
      (List.perm_ext_iff_of_nodup (nodup_sortDistinct ts) distinct).mpr fun t =>
        mem_sortDistinct.trans (same t)
    exact perm.eq_of_pairwise (fun _ _ _ _ => notAfter_antisymm) (ascending_sortDistinct ts) ascending

/-- Only which texts there are matters, not how often they come or where. -/
theorem sortDistinct_congr {ts us : List Text} (h : ∀ t, t ∈ ts ↔ t ∈ us) :
    sortDistinct ts = sortDistinct us :=
  sortDistinct_eq_iff.mpr ⟨fun t => (h t).trans mem_sortDistinct.symm, nodup_sortDistinct us,
    ascending_sortDistinct us⟩

/-- The parts need not be without repeats before they are put together. -/
theorem sortDistinct_flatMap {α : Type} (f : α → List Text) (l : List α) :
    sortDistinct (l.flatMap fun a => sortDistinct (f a)) = sortDistinct (l.flatMap f) := by
  apply sortDistinct_congr
  simp only [List.mem_flatMap, mem_sortDistinct, implies_true]

end Text

namespace Expression

variable {op : Operator} {es : List Expression} {a : Assignment}

/-- Merging keeps the leaves. -/
theorem flatMap_assignments_operandsFor (op : Operator) (e : Expression) :
    (operandsFor op e).flatMap assignments = e.assignments := by
  cases e with
  | blank | assignment => simp [operandsFor]
  | operation o operands =>
      simp only [operandsFor]
      split
      · rw [assignments_operation]
      · rw [List.flatMap_singleton]

theorem assignments_combine (op : Operator) (es : List Expression) :
    (combine op es).assignments = (survivors op es).flatMap assignments := by
  rcases combine_cases op es with ⟨none, result⟩ | ⟨e, one, result⟩ | ⟨-, result⟩
  · rw [result, none, assignments, List.flatMap_nil]
  · rw [result, one, List.flatMap_singleton]
  · rw [result, assignments_operation]

theorem mem_assignments_combine_iff (canonical : ∀ e ∈ es, e.Canonical)
    (leaves : ∀ e ∈ es, Over Assignment.Separable e) :
    a ∈ (combine op es).assignments ↔ ∃ e ∈ es, a ∈ e.assignments := by
  calc a ∈ (combine op es).assignments
      ↔ ∃ x ∈ survivors op es, a ∈ x.assignments := by
        rw [assignments_combine, List.mem_flatMap]
    _ ↔ ∃ x ∈ es.flatMap (operandsFor op), a ∈ x.assignments := by
        simp only [mem_survivors_iff canonical leaves]
    _ ↔ a ∈ es.flatMap fun e => (operandsFor op e).flatMap assignments := by
        rw [← List.mem_flatMap, List.flatMap_assoc]
    _ ↔ ∃ e ∈ es, a ∈ e.assignments := by
        simp only [flatMap_assignments_operandsFor, List.mem_flatMap]

/-- What is made of the leaves of a combination is what is made of the leaves of its operands, all
together. -/
theorem sortDistinct_map_assignments_combine (view : Assignment → Text)
    (canonical : ∀ e ∈ es, e.Canonical) (leaves : ∀ e ∈ es, Over Assignment.Separable e) :
    Text.sortDistinct ((combine op es).assignments.map view) =
      Text.sortDistinct (es.flatMap fun e => Text.sortDistinct (e.assignments.map view)) := by
  have same (a : Assignment) : a ∈ (combine op es).assignments ↔ a ∈ es.flatMap assignments :=
    (mem_assignments_combine_iff canonical leaves).trans List.mem_flatMap.symm
  rw [Text.sortDistinct_flatMap, ← List.map_flatMap]
  apply Text.sortDistinct_congr
  simp only [List.mem_map, same, implies_true]

/-- The combination of expressions over plain assignments refers to the families that its operands refer
to, and to the same choices, no more and no fewer. -/
theorem families_choices_combine (op : Operator) {es : List Expression}
    (built : ∀ e ∈ es, BuiltFrom Assignment.Plain e) :
    (combine op es).families = Text.sortDistinct (es.flatMap families) ∧
      (combine op es).choices = Text.sortDistinct (es.flatMap choices) := by
  have canonical : ∀ e ∈ es, e.Canonical := fun e he => (built e he).canonical
  have leaves : ∀ e ∈ es, Over Assignment.Separable e :=
    fun e he => (built e he).over.imp fun _ plain => plain.separable
  exact ⟨sortDistinct_map_assignments_combine Assignment.family canonical leaves,
    sortDistinct_map_assignments_combine Assignment.render canonical leaves⟩

/-- Of two equal operations one is dropped, and another is merged in. -/
theorem families_choices_combine_repeated :
    let ham : Expression := .assignment ⟨"Topping".toList, "ham".toList, by decide, by decide⟩
    let thin : Expression := .assignment ⟨"Crust".toList, "thin".toList, by decide, by decide⟩
    let large : Expression := .assignment ⟨"Size".toList, "large".toList, by decide, by decide⟩
    let either : Expression := .operation .or [thin, ham]
    let es : List Expression := [either, .operation .and [large, ham], either]
    (∀ e ∈ es, BuiltFrom Assignment.Plain e) ∧
      (combine .and es).families = ["Crust".toList, "Size".toList, "Topping".toList] ∧
      (combine .and es).choices =
        ["Crust = thin".toList, "Size = large".toList, "Topping = ham".toList] := by
  intro ham thin large either es
  have leaf (a : Assignment) (plain : a.Plain) : BuiltFrom Assignment.Plain (.assignment a) :=
    .assignment a plain
  have pair (op : Operator) (x y : Expression) (hx : BuiltFrom Assignment.Plain x)
      (hy : BuiltFrom Assignment.Plain y) (node : CanonicalNode op [x, y]) :
      BuiltFrom Assignment.Plain (.operation op [x, y]) :=
    combine_of_canonicalNode node ▸ .combine op [x, y] (by simp) (by simp [hx, hy])
  have builtHam : BuiltFrom Assignment.Plain ham := leaf _ ⟨by decide, by decide, by decide⟩
  have builtThin : BuiltFrom Assignment.Plain thin := leaf _ ⟨by decide, by decide, by decide⟩
  have builtLarge : BuiltFrom Assignment.Plain large := leaf _ ⟨by decide, by decide, by decide⟩
  have builtEither : BuiltFrom Assignment.Plain either :=
    pair .or thin ham builtThin builtHam ⟨by decide, by simp [thin, ham], by decide, by decide⟩
  have built : ∀ e ∈ es, BuiltFrom Assignment.Plain e := by
    simp only [es, List.mem_cons, List.not_mem_nil, or_false]
    rintro e (rfl | rfl | rfl)
    · exact builtEither
    · exact pair .and large ham builtLarge builtHam
        ⟨by decide, by simp [large, ham], by decide, by decide⟩
    · exact builtEither
  obtain ⟨families, choices⟩ := families_choices_combine .and built
  have listed (view : Assignment → Text) (ts : List Text)
      (within : ∀ t ∈ es.flatMap fun e => e.assignments.map view, t ∈ ts)
      (mentioned : ∀ t ∈ ts, t ∈ es.flatMap fun e => e.assignments.map view)
      (distinct : ts.Nodup) (ascending : Selection.Ascending id ts) :
      Text.sortDistinct (es.flatMap fun e => Text.sortDistinct (e.assignments.map view)) = ts := by
    rw [Text.sortDistinct_flatMap]
    exact Text.sortDistinct_eq_iff.mpr ⟨fun t => ⟨within t, mentioned t⟩, distinct, ascending⟩
  refine ⟨built, families.trans ?_, choices.trans ?_⟩
  · exact listed Assignment.family _ (by decide) (by decide) (by decide) (by decide)
  · exact listed Assignment.render _ (by decide) (by decide) (by decide) (by decide)

end Expression

end ChoiceLogic
