import ChoiceLogic.Reading.Basic

/-! # Steps of reading

A step of reading carries out the plan for a piece. The result of each kind of step, apart from what it
logs, and the results of reading several parts.
-/

namespace ChoiceLogic.Reading

/-- Does what a plan for a piece at a depth asks for, with a reader for the smaller pieces. -/
def Plan.carriedOut (reader : Text → Logged Expression) (depth : Nat) : Plan → Logged Expression
  | .settled result => ⟨[], result⟩
  | .unwrap remark inner => (reader inner).after (.step depth remark)
  | .split remark op parts =>
    ((Logged.each reader parts).map (Expression.combine op)).after (.step depth remark)

theorem readAt_succ (maxDepth levels depth : Nat) (t : Text) :
    readAt maxDepth (levels + 1) depth t =
      (Plan.of t).carriedOut (readAt maxDepth levels (depth + 1)) depth := by
  rw [readAt]
  cases Plan.of t <;> rfl

section Steps

variable {maxDepth levels depth : Nat} {t : Text}

theorem readAt_settled {result : Except Fault Expression} (plan : Plan.of t = .settled result) :
    (readAt maxDepth (levels + 1) depth t).result = result := by
  simp only [readAt, plan]

theorem readAt_unwrap {remark : Remark} {inner : Text} (plan : Plan.of t = .unwrap remark inner) :
    (readAt maxDepth (levels + 1) depth t).result =
      (readAt maxDepth levels (depth + 1) inner).result := by
  simp only [readAt, plan, Logged.after]

theorem readAt_split {remark : Remark} {op : Operator} {parts : List Text}
    (plan : Plan.of t = .split remark op parts) :
    (readAt maxDepth (levels + 1) depth t).result =
      (Logged.each (readAt maxDepth levels (depth + 1)) parts).result.map (Expression.combine op) := by
  simp only [readAt, plan, Logged.after, Logged.map]

end Steps

theorem closed_result (input : Text) (x : Logged Expression) : (x.closed input).result = x.result := by
  unfold Logged.closed
  split <;> rfl

theorem read_result {limits : Limits} {input : Text} (fits : Text.byteSize input ≤ limits.maxBytes) :
    (read limits input).result = (readAt limits.maxDepth (limits.maxDepth + 1) 0 input).result := by
  rw [read, if_neg (Nat.not_lt.mpr fits), closed_result]

/-! ## Reading the parts -/

section Parts

variable {α β : Type} {f : α → Logged β} {as : List α}

theorem each_result_eq {g : α → Logged β} (same : ∀ a, (g a).result = (f a).result) (as : List α) :
    (Logged.each g as).result = (Logged.each f as).result := by
  induction as with
  | nil => rfl
  | cons a as ih =>
      simp only [Logged.each, same a]
      cases (f a).result with
      | error fault => rfl
      | ok b => simp only [ih]

theorem each_map {γ : Type} (g : γ → α) (cs : List γ) :
    Logged.each f (cs.map g) = Logged.each (fun c => f (g c)) cs := by
  induction cs with
  | nil => rfl
  | cons c cs ih => simp only [List.map_cons, Logged.each, ih]

/-- When all parts that fail have the same fault, the whole has it. -/
theorem each_result_eq_ite (p : α → Prop) [DecidablePred p] (g : α → β) (fault : Fault)
    (h : ∀ a ∈ as, (f a).result = if p a then .ok (g a) else .error fault) :
    (Logged.each f as).result = if ∀ a ∈ as, p a then .ok (as.map g) else .error fault := by
  induction as with
  | nil => simp [Logged.each]
  | cons a as ih =>
      have first := h a (.head as)
      have rest := ih fun b hb => h b (.tail a hb)
      simp only [Logged.each]
      by_cases pa : p a
      · rw [if_pos pa] at first
        simp only [first, rest, List.mem_cons, forall_eq_or_imp, pa, true_and]
        by_cases all : ∀ b ∈ as, p b
        · rw [if_pos all, if_pos all]
          rfl
        · rw [if_neg all, if_neg all]
          rfl
      · rw [if_neg pa] at first
        simp only [first, List.mem_cons, forall_eq_or_imp, pa, false_and, if_false]

theorem each_result_of_ok (g : α → β) (h : ∀ a ∈ as, (f a).result = .ok (g a)) :
    (Logged.each f as).result = .ok (as.map g) := by
  induction as with
  | nil => rfl
  | cons a as ih =>
      simp only [Logged.each, h a (.head as), ih fun b hb => h b (.tail a hb)]
      rfl

/-- The whole is read only if every part is. -/
theorem ok_of_each_result {bs : List β} (h : (Logged.each f as).result = .ok bs) :
    ∀ a ∈ as, ∃ b, (f a).result = .ok b := by
  induction as generalizing bs with
  | nil => simp
  | cons a as ih =>
      simp only [Logged.each] at h
      split at h
      · cases h
      · next b first =>
          cases rest : (Logged.each f as).result with
          | error fault => simp [rest, Except.map] at h
          | ok cs =>
              intro c hc
              rcases List.mem_cons.mp hc with rfl | hc
              · exact ⟨b, first⟩
              · exact ih rest c hc

/-- The fault of the whole is that of the first part that has one. -/
theorem each_result_eq_error_iff {fault : Fault} : (Logged.each f as).result = .error fault ↔
    ∃ before a behind, as = before ++ a :: behind ∧ (∀ b ∈ before, ∃ c, (f b).result = .ok c) ∧
      (f a).result = .error fault := by
  induction as with
  | nil => simp [Logged.each]
  | cons a as ih =>
      cases first : (f a).result with
      | error why =>
          simp only [Logged.each, first, Except.error.injEq]
          constructor
          · rintro rfl
            exact ⟨[], a, as, rfl, by simp, first⟩
          · rintro ⟨before, b, behind, whole, read, failed⟩
            cases before with
            | nil =>
                obtain ⟨rfl, -⟩ := List.cons.inj whole
                exact Except.error.inj (first.symm.trans failed)
            | cons c before =>
                obtain ⟨rfl, -⟩ := List.cons.inj whole
                obtain ⟨d, hd⟩ := read a (.head before)
                cases first.symm.trans hd
      | ok b =>
          have later : (Logged.each f (a :: as)).result = .error fault ↔
              (Logged.each f as).result = .error fault := by
            simp only [Logged.each, first]
            cases (Logged.each f as).result <;> simp [Except.map]
          rw [later, ih]
          constructor
          · rintro ⟨before, c, behind, rfl, read, failed⟩
            refine ⟨a :: before, c, behind, rfl, ?_, failed⟩
            simpa using ⟨⟨b, first⟩, read⟩
          · rintro ⟨before, c, behind, whole, read, failed⟩
            cases before with
            | nil =>
                obtain ⟨rfl, -⟩ := List.cons.inj whole
                cases first.symm.trans failed
            | cons d before =>
                obtain ⟨-, rfl⟩ := List.cons.inj whole
                exact ⟨before, c, behind, rfl, fun x hx => read x (.tail d hx), failed⟩

/-- The fault of the whole is that of one of the parts. -/
theorem error_of_each_result {fault : Fault} (h : (Logged.each f as).result = .error fault) :
    ∃ a ∈ as, (f a).result = .error fault := by
  obtain ⟨before, a, behind, rfl, -, failed⟩ := each_result_eq_error_iff.mp h
  exact ⟨a, by simp, failed⟩

end Parts

end ChoiceLogic.Reading
