import ChoiceLogic.Proofs.Combine.Canonical

/-! # Merging combinations

Combining in two steps with one operator gives what combining in one step gives. The inner step has
dropped repeats and sorted before the outer one sees its operands. Dropping repeats early leaves the
same first elements, and among operands of one text a stable sort leaves the order in which they came.
-/

namespace ChoiceLogic.Expression

variable {op : Operator} {es xs ys zs : List Expression}

theorem combine_congr (h : survivors op xs = survivors op ys) : combine op xs = combine op ys := by
  simp only [combine, h]

/-- Where nothing is merged in, the operands are the expressions themselves. -/
theorem flatMap_operandsFor_of_alone (alone : ∀ e ∈ es, operandsFor op e = [e]) :
    es.flatMap (operandsFor op) = es := by
  rw [List.flatMap_def, List.map_congr_left alone, ← List.flatMap_def, List.flatMap_singleton']

/-- Canonical operands stand as they are. -/
theorem survivors_of_canonicalNode (h : CanonicalNode op es) : survivors op es = es := by
  have alone : ∀ e ∈ es, operandsFor op e = [e] := by
    intro e he
    cases e with
    | blank | assignment => rfl
    | operation o inner =>
        have other : o ≠ op := fun same => h.flat _ he inner (same ▸ rfl)
        simp [operandsFor, other]
  rw [survivors_eq, flatMap_operandsFor_of_alone alone, Selection.eraseDupsBy_of_pairwise h.distinct,
    Selection.sorted_of_ascending render h.ascending]

theorem combine_of_canonicalNode (h : CanonicalNode op es) : combine op es = .operation op es := by
  rcases combine_cases op es with ⟨none, -⟩ | ⟨e, one, -⟩ | ⟨-, result⟩
  · exact absurd (survivors_of_canonicalNode h ▸ none) h.ne_nil
  · have two := h.two_le
    simp [survivors_of_canonicalNode h ▸ one] at two
  · rw [result, survivors_of_canonicalNode h]

theorem flatMap_operandsFor_ne_nil (op : Operator) (h : ∀ e ∈ es, e.Canonical) (nonempty : es ≠ []) :
    es.flatMap (operandsFor op) ≠ [] := by
  obtain ⟨e, es, rfl⟩ := List.exists_cons_of_ne_nil nonempty
  have some : operandsFor op e ≠ [] := by
    cases e with
    | blank | assignment => simp [operandsFor]
    | operation o inner =>
        simp only [operandsFor]
        split
        · exact (h _ (.head es)).node.ne_nil
        · simp
  simp [some]

theorem survivors_ne_nil (h : ∀ e ∈ es, e.Canonical) (nonempty : es ≠ []) :
    survivors op es ≠ [] := by
  obtain ⟨e, rest, some⟩ := List.exists_cons_of_ne_nil (flatMap_operandsFor_ne_nil op h nonempty)
  rw [survivors_eq, some, Selection.eraseDupsBy_cons]
  intro none
  have := (Selection.sorted_perm render _).length_eq.symm.trans (congrArg List.length none)
  simp at this

/-- A combination contributes to an operation with its operator what it has kept. -/
theorem operandsFor_combine (h : ∀ e ∈ ys, e.Canonical) (nonempty : ys ≠ []) :
    operandsFor op (combine op ys) = survivors op ys := by
  rcases combine_cases op ys with ⟨none, -⟩ | ⟨e, one, result⟩ | ⟨-, result⟩
  · exact absurd none (survivors_ne_nil h nonempty)
  · have flat := flat_of_mem_flatMap h e (mem_flatMap_of_mem_survivors (one ▸ List.mem_singleton_self e))
    rw [result, one]
    cases e with
    | blank | assignment => rfl
    | operation o inner =>
        have other : o ≠ op := fun same => flat inner (same ▸ rfl)
        simp [operandsFor, other]
  · simp [result, operandsFor]

theorem withKey_survivors (t : Text) (h : ∀ e ∈ es, e.Canonical) :
    Selection.withKey render t (survivors op es) =
      (Selection.withKey render t (es.flatMap (operandsFor op))).eraseDupsBy sameIdentity := by
  rw [survivors_eq, Selection.withKey_sorted, eraseDupsBy_repeats (canonical_of_mem_flatMap h)]
  exact Selection.filter_eraseDupsBy
    (fun x y same => by rw [render_eq_of_sameIdentity same]) _

theorem survivors_append_combine (hx : ∀ e ∈ xs, e.Canonical) (hy : ∀ e ∈ ys, e.Canonical)
    (hz : ∀ e ∈ zs, e.Canonical) (nonempty : ys ≠ []) :
    survivors op (xs ++ [combine op ys] ++ zs) = survivors op (xs ++ ys ++ zs) := by
  have inner : ∀ e ∈ xs ++ [combine op ys] ++ zs, e.Canonical := by
    simp only [List.mem_append, List.mem_singleton]
    rintro e ((he | rfl) | he)
    · exact hx e he
    · exact .combine hy
    · exact hz e he
  have flat : ∀ e ∈ xs ++ ys ++ zs, e.Canonical := by
    simp only [List.mem_append]
    rintro e ((he | he) | he)
    · exact hx e he
    · exact hy e he
    · exact hz e he
  have sorted (es : List Expression) : survivors op es = Selection.sorted render (survivors op es) :=
    (Selection.sorted_of_ascending render ascending_survivors).symm
  -- Two ascending lists are equal when they agree on the operands of each text.
  rw [sorted (xs ++ [combine op ys] ++ zs), sorted (xs ++ ys ++ zs)]
  refine Selection.sorted_congr render fun t => ?_
  let within (es : List Expression) := Selection.withKey render t (es.flatMap (operandsFor op))
  have split (left middle right : List Expression) :
      within (left ++ middle ++ right) = within left ++ within middle ++ within right := by
    simp only [within, Selection.withKey, List.flatMap_append, List.filter_append]
  have kept : within [combine op ys] = (within ys).eraseDupsBy sameIdentity := by
    simp only [within, List.flatMap_singleton, operandsFor_combine hy nonempty, withKey_survivors t hy]
  rw [withKey_survivors t inner, withKey_survivors t flat]
  calc (within (xs ++ [combine op ys] ++ zs)).eraseDupsBy sameIdentity
      = (within xs ++ (within ys).eraseDupsBy sameIdentity ++ within zs).eraseDupsBy sameIdentity := by
        rw [split, kept]
    _ = (within xs ++ within ys ++ within zs).eraseDupsBy sameIdentity :=
        repetition_sameIdentity.eraseDupsBy_append_append _ _ _
    _ = (within (xs ++ ys ++ zs)).eraseDupsBy sameIdentity := by rw [split]

theorem combine_append (hx : ∀ e ∈ xs, e.Canonical) (hy : ∀ e ∈ ys, e.Canonical)
    (hz : ∀ e ∈ zs, e.Canonical) (nonempty : ys ≠ []) :
    combine op (xs ++ [combine op ys] ++ zs) = combine op (xs ++ ys ++ zs) :=
  combine_congr (survivors_append_combine hx hy hz nonempty)

theorem combine_combine (h : ∀ e ∈ es, e.Canonical) (nonempty : es ≠ []) :
    combine op [combine op es] = combine op es := by
  have none : ∀ e ∈ ([] : List Expression), e.Canonical := by simp
  simpa using combine_append none h none nonempty

section Leaves

variable (leaves : ∀ e ∈ es, ∃ a, e = .assignment a)
include leaves

theorem canonical_of_leaves : ∀ e ∈ es, e.Canonical := by
  intro e he
  obtain ⟨a, rfl⟩ := leaves e he
  exact .assignment a

theorem flatMap_operandsFor_of_leaves : es.flatMap (operandsFor op) = es := by
  refine flatMap_operandsFor_of_alone fun e he => ?_
  obtain ⟨a, rfl⟩ := leaves e he
  rfl

end Leaves

theorem blank_notMem_operandsFor_of_leaf {e : Expression} (leaf : ∃ a, e = .assignment a) :
    .blank ∉ operandsFor op e := by
  obtain ⟨a, rfl⟩ := leaf
  simp [operandsFor]

/-- A text that occurs again may be left out, unless it stands for a blank or brings one with it. -/
theorem combine_map_eraseDups {f : Text → Expression} {ts : List Text}
    (filled : ∀ t ∈ ts, .blank ∉ operandsFor op (f t)) :
    combine op (ts.eraseDups.map f) = combine op (ts.map f) := by
  have itself (t : Text) (ht : t ∈ ts) (e : Expression) (he : e ∈ operandsFor op (f t)) : e.repeats e :=
    repeats_self fun blank => filled t ht (blank ▸ he)
  apply combine_congr
  rw [survivors_eq, survivors_eq, List.flatMap_map, List.flatMap_map,
    Selection.eraseDupsBy_flatMap_eraseDups itself]

/-- Combining some of the operands with the same operator first makes no difference. -/
theorem combine_append_combine (op : Operator) (xs ys zs : List Expression)
    (hx : ∀ e ∈ xs, e.Obtainable) (hy : ∀ e ∈ ys, e.Obtainable) (hz : ∀ e ∈ zs, e.Obtainable)
    (nonempty : ys ≠ []) :
    combine op (xs ++ [combine op ys] ++ zs) = combine op (xs ++ ys ++ zs) :=
  combine_append (fun e he => (hx e he).canonical) (fun e he => (hy e he).canonical)
    (fun e he => (hz e he).canonical) nonempty

/-- The inner operands hold a blank, a repeat, and a value that reads like an operator and its
operands in parentheses. -/
theorem combine_append_combine_odd_values :
    let plain : Expression := .assignment ⟨['A'], ['B'], by decide, by decide⟩
    let odd : Expression := .assignment ⟨['C'], "(D OR E)".toList, by decide, by decide⟩
    let inner := [odd, .blank, combine .or [plain, odd], plain]
    (∀ e ∈ inner, e.Obtainable) ∧ inner ≠ [] ∧
      combine .or ([odd] ++ [combine .or inner] ++ [plain]) =
        combine .or ([odd] ++ inner ++ [plain]) := by
  intro plain odd inner
  have leaves : ∀ e ∈ [plain, odd], e.Obtainable := by
    simp only [List.mem_cons, List.not_mem_nil, or_false]
    rintro e (rfl | rfl)
    · exact .assignment _
    · exact .assignment _
  have each : ∀ e ∈ inner, e.Obtainable := by
    simp only [inner, List.mem_cons, List.not_mem_nil, or_false]
    rintro e (rfl | rfl | rfl | rfl)
    · exact .assignment _
    · exact .blank
    · exact .combine .or _ leaves
    · exact .assignment _
  refine ⟨each, by simp [inner], combine_append_combine .or [odd] inner [plain] ?_ each ?_ ?_⟩
  · intro e he
    exact leaves e (by simp [List.mem_singleton.mp he])
  · intro e he
    exact leaves e (by simp [List.mem_singleton.mp he])
  · simp [inner]

end ChoiceLogic.Expression
