import ChoiceLogic.Proofs.Combine.Nodes

/-! # Fixed points

What `combine` has built stands as it is: combining it alone gives it back, with either operator, and so
does combining it once more from its leaves up. And what is among the operands already adds nothing when
it is put behind them, unless it brings a blank.
-/

namespace ChoiceLogic.Expression

variable {op : Operator} {e : Expression} {es operands : List Expression}

/-! ## One operand -/

theorem survivors_singleton (alone : operandsFor op e = [e]) : survivors op [e] = [e] := by
  have one (f : Expression → Expression → Prop) : [e].Pairwise f := List.pairwise_singleton f e
  rw [survivors_eq, List.flatMap_singleton, alone, Selection.eraseDupsBy_of_pairwise (one _),
    Selection.sorted_of_ascending render (one _)]

theorem combine_singleton (op : Operator) (h : e.Canonical) : combine op [e] = e := by
  by_cases alone : operandsFor op e = [e]
  · simp only [combine, survivors_singleton alone]
  · -- Only an operation with this operator is merged in, and its operands are canonical.
    cases h with
    | blank | assignment => exact absurd rfl alone
    | @operation o operands node each =>
        obtain rfl : o = op := by
          by_contra other
          simp [operandsFor, other] at alone
        rw [← combine_of_canonicalNode node, combine_combine each node.ne_nil]

/-! ## From the leaves up -/

mutual
/-- Every operation is combined again from its operands, the innermost first. -/
def rebuild : Expression → Expression
  | .blank => .blank
  | .assignment a => .assignment a
  | .operation op operands => combine op (rebuildAll operands)

def rebuildAll : List Expression → List Expression
  | [] => []
  | e :: rest => rebuild e :: rebuildAll rest
end

theorem rebuildAll_eq_map (es : List Expression) : rebuildAll es = es.map rebuild := by
  induction es with
  | nil => rfl
  | cons e es ih => rw [rebuildAll, ih, List.map_cons]

theorem rebuild_of_canonical (h : e.Canonical) : e.rebuild = e := by
  induction h with
  | blank | assignment => rfl
  | @operation op operands node each ih =>
      have same : operands.map rebuild = operands :=
        (List.map_congr_left ih).trans (List.map_id _)
      rw [rebuild, rebuildAll_eq_map, same, combine_of_canonicalNode node]

/-! ## One operand more -/

theorem survivors_append_of_mem (mem : e ∈ es) (filled : .blank ∉ operandsFor op e) :
    survivors op (es ++ [e]) = survivors op es := by
  have before : operandsFor op e ⊆ es.flatMap (operandsFor op) :=
    fun x hx => List.mem_flatMap.mpr ⟨e, mem, hx⟩
  have itself (x : Expression) (hx : x ∈ operandsFor op e) : x.repeats x :=
    repeats_self fun blank => filled (blank ▸ hx)
  have absorbed := Selection.eraseDupsBy_append_append_of_subset before itself []
  rw [List.append_nil, List.append_nil] at absorbed
  rw [survivors_eq, survivors_eq, List.flatMap_append, List.flatMap_singleton, absorbed]

theorem blank_notMem_operandsFor (filled : e ≠ .blank)
    (within : ∀ operands, e = .operation op operands → .blank ∉ operands) :
    .blank ∉ operandsFor op e := by
  cases e with
  | blank => exact absurd rfl filled
  | assignment a => simp [operandsFor]
  | operation o operands =>
      simp only [operandsFor]
      split
      · next same => exact within operands (same ▸ rfl)
      · simp

/-- An expression that `combine` has built is what it is combined to alone, with any operator, and what it
is rebuilt as. Where it is an operand already, it may be added to the operands again, unless it is a
blank or has blanks to be merged in. -/
theorem combine_eq_of_obtainable (built : e.Obtainable) (op : Operator) :
    combine op [e] = e ∧ e.rebuild = e ∧
      ∀ es, e ∈ es → e ≠ .blank → (∀ operands, e = .operation op operands → .blank ∉ operands) →
        combine op (es ++ [e]) = combine op es := by
  refine ⟨combine_singleton op built.canonical, rebuild_of_canonical built.canonical, ?_⟩
  intro es mem filled within
  exact combine_congr (survivors_append_of_mem mem (blank_notMem_operandsFor filled within))

/-- Two assignments that look the same stand side by side in an operation, which is merged in with one
operator and stands as an operand, with its blank, with the other. -/
theorem combine_eq_of_obtainable_odd_values :
    let a : Expression := .assignment ⟨"A".toList, "= B".toList, by decide, by decide⟩
    let b : Expression := .assignment ⟨"A =".toList, "B".toList, by decide, by decide⟩
    let c : Expression := .assignment ⟨"C".toList, "D OR E".toList, by decide, by decide⟩
    let e : Expression := .operation .or [b, a, c]
    let f : Expression := .operation .or [.blank, a]
    e.Obtainable ∧ f.Obtainable ∧ e.rebuild = e ∧ combine .or [e] = e ∧ combine .and [f] = f ∧
      combine .or ([a, .blank, e, f] ++ [e]) = combine .or [a, .blank, e, f] ∧
      combine .and ([f, a, .blank] ++ [f]) = combine .and [f, a, .blank] := by
  intro a b c e f
  have leaves (es : List Expression) (sub : es ⊆ [.blank, a, b, c]) : ∀ x ∈ es, x.Obtainable := by
    intro x hx
    have small := sub hx
    simp only [List.mem_cons, List.not_mem_nil, or_false] at small
    rcases small with rfl | rfl | rfl | rfl
    · exact .blank
    · exact .assignment _
    · exact .assignment _
    · exact .assignment _
  have nodeE : combine .or [b, a, c] = e :=
    combine_of_canonicalNode ⟨by decide, by simp [a, b, c], by decide, by decide⟩
  have nodeF : combine .or [.blank, a] = f :=
    combine_of_canonicalNode ⟨by decide, by simp [a], by decide, by decide⟩
  have builtE : e.Obtainable := nodeE ▸ .combine _ _ (leaves _ (by simp))
  have builtF : f.Obtainable := nodeF ▸ .combine _ _ (leaves _ (by simp))
  obtain ⟨alone, rebuilt, more⟩ := combine_eq_of_obtainable builtE .or
  obtain ⟨alone', -, more'⟩ := combine_eq_of_obtainable builtF .and
  refine ⟨builtE, builtF, rebuilt, alone, alone', more _ (by simp) (by simp [e]) ?_,
    more' _ (by simp) (by simp [f]) (by simp [f])⟩
  intro operands same
  obtain ⟨-, rfl⟩ := Expression.operation.inj same
  simp [a, b, c]

end ChoiceLogic.Expression
