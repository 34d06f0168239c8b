import ChoiceLogic.Proofs.Combine.Flattening

/-! # The order of the operands

Expressions may be combined in any order. Which of two that repeat each other is kept depends on the
order, but not how many are kept, nor what their texts are. The order shows in the result only where
different expressions have the same text.
-/

namespace ChoiceLogic.Selection

variable {α β : Type} {r : α → α → Bool} {f : α → β} {l m : List α}

private theorem Repetition.eraseDupsBy_swap (hr : Repetition r) (hf : ∀ a b, r b a → f a = f b) (a b : α)
    (l : List α) :
    (((b :: a :: l).eraseDupsBy r).map f).Perm (((a :: b :: l).eraseDupsBy r).map f) := by
  have whole (a b : α) : (b :: a :: l).eraseDupsBy r =
      b :: (if r a b then unlike r b l else a :: unlike r b l).eraseDupsBy r := by
    rw [eraseDupsBy_cons, unlike_cons]
  rw [whole a b, whole b a, hr.comm b a]
  cases again : r a b with
  | true =>
      have same : unlike r b l = unlike r a l :=
        List.filter_congr fun c _ => by rw [hr.comm c b, hr.comm c a, hr.eq_of_repeats again c]
      simp only [if_true, List.map_cons, same, hf b a again]
      exact List.Perm.refl _
  | false =>
      have apart : unlike r a (unlike r b l) = unlike r b (unlike r a l) := by
        simp only [unlike, List.filter_filter, Bool.and_comm]
      simp only [Bool.false_eq_true, if_false, eraseDupsBy_cons, List.map_cons, apart]
      exact List.Perm.swap ..

/-- What an element and its repeats have in common is kept as often in any order. -/
theorem Repetition.map_eraseDupsBy_perm (hr : Repetition r) (hf : ∀ a b, r b a → f a = f b)
    (h : l.Perm m) : ((l.eraseDupsBy r).map f).Perm ((m.eraseDupsBy r).map f) := by
  -- An element that is kept takes its repeats away, so the lists are compared under any filter.
  suffices filtered : ∀ p : α → Bool, (∀ a b, r b a → p a = p b) →
      (((l.filter p).eraseDupsBy r).map f).Perm (((m.filter p).eraseDupsBy r).map f) by
    have all (l : List α) : l.filter (fun _ => true) = l := List.filter_eq_self.mpr fun _ _ => rfl
    simpa only [all] using filtered (fun _ => true) fun _ _ _ => rfl
  induction h with
  | nil => exact fun _ _ => List.Perm.refl _
  | @cons a l m _ ih =>
      intro p hp
      cases keep : p a with
      | false => simpa [keep] using ih p hp
      | true =>
          have later := ih (fun b => decide (r b a = false) && p b) fun b c hcb => by
            rw [hp b c hcb, hr.eq_of_repeats hcb a]
          rw [List.filter_cons_of_pos keep, List.filter_cons_of_pos keep, eraseDupsBy_cons,
            eraseDupsBy_cons, unlike, unlike, List.filter_filter, List.filter_filter]
          exact later.cons (f a)
  | swap a b l =>
      intro p _
      cases keepA : p a <;> cases keepB : p b <;> simp only [List.filter_cons, keepA, keepB, if_true,
        Bool.false_eq_true, if_false]
      · exact List.Perm.refl _
      · exact List.Perm.refl _
      · exact List.Perm.refl _
      · exact hr.eraseDupsBy_swap hf a b _
  | trans _ _ first second => exact fun p hp => (first p hp).trans (second p hp)

/-- The texts of sorted elements are the sorted texts. -/
theorem map_sorted_eq_of_perm {key : α → Text} (h : (l.map key).Perm (m.map key)) :
    (sorted key l).map key = (sorted key m).map key := by
  have ordered (l : List α) : ((sorted key l).map key).Pairwise fun s t => Text.notAfter s t :=
    List.pairwise_map.mpr (ascending_sorted key l)
  have perm : ((sorted key l).map key).Perm ((sorted key m).map key) :=
    (((sorted_perm key l).map key).trans h).trans ((sorted_perm key m).map key).symm
  exact perm.eq_of_pairwise (fun _ _ _ _ => Text.notAfter_antisymm) (ordered l) (ordered m)

end ChoiceLogic.Selection

namespace ChoiceLogic.Expression

variable {op : Operator} {es fs : List Expression}

theorem map_render_survivors_of_perm (canonical : ∀ e ∈ es, e.Canonical) (perm : es.Perm fs) :
    (survivors op es).map render = (survivors op fs).map render := by
  have canonical' : ∀ e ∈ fs, e.Canonical := fun e he => canonical e (perm.mem_iff.mpr he)
  have merged : (es.flatMap (operandsFor op)).Perm (fs.flatMap (operandsFor op)) := perm.flatMap_right _
  rw [survivors_eq, survivors_eq, eraseDupsBy_repeats (canonical_of_mem_flatMap canonical),
    eraseDupsBy_repeats (canonical_of_mem_flatMap canonical')]
  apply Selection.map_sorted_eq_of_perm
  exact repetition_sameIdentity.map_eraseDupsBy_perm
    (fun x y same => (render_eq_of_sameIdentity same).symm) merged

/-- Where every text belongs to one operand, the order of the operands does not matter. -/
theorem survivors_eq_of_perm (canonical : ∀ e ∈ es, e.Canonical) (perm : es.Perm fs)
    (unlike : ∀ x ∈ es.flatMap (operandsFor op), ∀ y ∈ es.flatMap (operandsFor op),
      x.render = y.render → x = y) : survivors op es = survivors op fs := by
  refine Selection.eq_of_map_eq (map_render_survivors_of_perm canonical perm) fun x hx y hy => ?_
  have merged := (perm.flatMap_right (operandsFor op)).mem_iff (a := y)
  exact unlike x (mem_flatMap_of_mem_survivors hx) y (merged.mpr (mem_flatMap_of_mem_survivors hy))

/-- However expressions are ordered, as many operands are kept of them, with the same texts in the same
order. If no two different operands have the same text, the combination is the same. -/
theorem combine_of_perm (op : Operator) {es fs : List Expression} (built : ∀ e ∈ es, e.Obtainable)
    (perm : es.Perm fs) :
    (survivors op es).length = (survivors op fs).length ∧
      (survivors op es).map render = (survivors op fs).map render ∧
      ((∀ x ∈ es.flatMap (operandsFor op), ∀ y ∈ es.flatMap (operandsFor op),
        x.render = y.render → x = y) → combine op es = combine op fs) := by
  have canonical : ∀ e ∈ es, e.Canonical := fun e he => (built e he).canonical
  have texts : (survivors op es).map render = (survivors op fs).map render :=
    map_render_survivors_of_perm canonical perm
  refine ⟨by simpa using congrArg List.length texts, texts, fun unlike => ?_⟩
  exact combine_congr (survivors_eq_of_perm canonical perm unlike)

/-- Two different assignments with one text are both kept, and stand in the order in which they came. -/
theorem combine_of_perm_odd_values :
    let a : Expression := .assignment ⟨"A".toList, "= B".toList, by decide, by decide⟩
    let b : Expression := .assignment ⟨"A =".toList, "B".toList, by decide, by decide⟩
    let c : Expression := .assignment ⟨"C".toList, "D OR E".toList, by decide, by decide⟩
    let inner : Expression := .operation .and [a, c]
    (∀ e ∈ [.blank, a, b, inner], e.Obtainable) ∧
      [.blank, a, b].Perm [.blank, b, a] ∧ [inner, .blank, a].Perm [a, inner, .blank] ∧
      (survivors .and [.blank, a, b]).map render = (survivors .and [.blank, b, a]).map render ∧
      combine .and [.blank, a, b] ≠ combine .and [.blank, b, a] ∧
      combine .and [inner, .blank, a] = combine .and [a, inner, .blank] := by
  intro a b c inner
  have node : combine .and [a, c] = inner :=
    combine_of_canonicalNode ⟨by decide, by simp [a, c], by decide, by decide⟩
  have built : ∀ e ∈ [.blank, a, b, inner], e.Obtainable := by
    simp only [List.mem_cons, List.not_mem_nil, or_false]
    rintro e (rfl | rfl | rfl | rfl)
    · exact .blank
    · exact .assignment _
    · exact .assignment _
    · refine node ▸ .combine _ _ ?_
      simp only [List.mem_cons, List.not_mem_nil, or_false]
      rintro e (rfl | rfl)
      · exact .assignment _
      · exact .assignment _
  have within (es : List Expression) (sub : es ⊆ [.blank, a, b, inner]) : ∀ e ∈ es, e.Obtainable :=
    fun e he => built e (sub he)
  have swapped : [.blank, a, b].Perm [.blank, b, a] := (List.Perm.swap b a []).cons _
  have moved : [inner, .blank, a].Perm [a, inner, .blank] :=
    (List.perm_append_singleton a [inner, .blank])
  obtain ⟨-, texts, -⟩ := combine_of_perm .and (within _ (by simp)) swapped
  obtain ⟨-, -, same⟩ := combine_of_perm .and (within _ (by simp)) moved
  refine ⟨built, swapped, moved, texts, ?_, same (by decide)⟩
  rw [combine_of_canonicalNode ⟨by decide, by simp [a, b], by decide, by decide⟩,
    combine_of_canonicalNode ⟨by decide, by simp [a, b], by decide, by decide⟩]
  decide

end ChoiceLogic.Expression
