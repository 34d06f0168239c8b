import ChoiceLogic.Proofs.Reading.Steps

/-! # More levels

The number of levels only decides where reading is cut off. A reading that was not cut off gives the
same result with more levels, at whatever depth it starts.
-/

namespace ChoiceLogic.Reading

/-- Parts that are read as before, unless they fail with one fault, are together read as before. -/
theorem each_result_congr {α β : Type} {f g : α → Logged β} {fault : Fault} {as : List α}
    (same : ∀ a ∈ as, (f a).result ≠ .error fault → (g a).result = (f a).result)
    (h : (Logged.each f as).result ≠ .error fault) :
    (Logged.each g as).result = (Logged.each f as).result := by
  induction as with
  | nil => rfl
  | cons a as ih =>
      have first := same a (.head as)
      have later := ih fun b hb => same b (.tail a hb)
      simp only [Logged.each] at h ⊢
      cases read : (f a).result with
      | error why =>
          simp only [read] at h first ⊢
          rw [first (by simpa using h)]
      | ok b =>
          simp only [read] at h first ⊢
          rw [first (by simp)]
          have rest : (Logged.each f as).result ≠ .error fault := by
            intro failed
            simp [failed, Except.map] at h
          rw [later rest]

theorem readAt_mono {maxDepth more levels most depth deeper : Nat} {t : Text}
    (h : (readAt maxDepth levels depth t).result ≠ .error (.tooDeep maxDepth)) (le : levels ≤ most) :
    (readAt more most deeper t).result = (readAt maxDepth levels depth t).result := by
  induction levels generalizing most depth deeper t with
  | zero => simp [readAt, Logged.fail] at h
  | succ levels ih =>
      obtain ⟨most, rfl⟩ : ∃ l, most = l + 1 := ⟨most - 1, by omega⟩
      have enough : levels ≤ most := Nat.le_of_succ_le_succ le
      cases plan : Plan.of t with
      | settled result => rw [readAt_settled plan, readAt_settled plan]
      | unwrap remark inner =>
          rw [readAt_unwrap plan] at h ⊢
          rw [readAt_unwrap plan]
          exact ih h enough
      | split remark op parts =>
          rw [readAt_split plan] at h ⊢
          rw [readAt_split plan]
          have read : (Logged.each (readAt maxDepth levels (depth + 1)) parts).result ≠
              .error (.tooDeep maxDepth) := by
            intro failed
            simp [failed, Except.map] at h
          rw [each_result_congr (fun p _ cut => ih cut enough) read]

theorem readAt_mono_ok {maxDepth more levels most depth deeper : Nat} {t : Text} {e : Expression}
    (h : (readAt maxDepth levels depth t).result = .ok e) (le : levels ≤ most) :
    (readAt more most deeper t).result = .ok e := by
  rw [← h]
  exact readAt_mono (by simp [h]) le

/-- A text that is read keeps to the limits. -/
theorem readAt_of_read {limits : Limits} {t : Text} {e : Expression}
    (h : (read limits t).result = .ok e) :
    (readAt limits.maxDepth (limits.maxDepth + 1) 0 t).result = .ok e := by
  by_cases fits : Text.byteSize t ≤ limits.maxBytes
  · rwa [read_result fits] at h
  · rw [read, if_pos (Nat.lt_of_not_le fits)] at h
    cases h

end ChoiceLogic.Reading
