import ChoiceLogic.Proofs.Reading.Leaves

/-! # Fragments that occur again

A fragment that occurs again in a piece with one operator is read once. To read it as often as it occurs
would make no difference but to the log: the first fragment at fault would be the same, and what a
fragment is read as is absorbed by its first occurrence, since no blank comes with it.
-/

namespace ChoiceLogic.Reading

open Expression Markup Text

/-! ## Plans that repeat -/

/-- The plan for a piece that has no operator but this one, if a fragment that occurs again is read
again. -/
def Plan.repeating (op : Operator) (piece : Text) : Plan :=
  let parts := fragments op piece
  if parts.any (·.all isBlank) then .settled (.error (.noOperand op piece))
  else .split (.fragments op parts.length) op parts

/-- The plan for any text, if fragments that occur again are read again. -/
def Plan.repeatingOf (t : Text) : Plan :=
  match Plan.of t with
  | .split (.fragments op _) _ _ => repeating op (trim t)
  | plan => plan

/-- Three fragments, two of them the same. -/
example : let t : Text := "A = B OR C = D OR A = B".toList
    (Plan.of t = .split (.fragments .or 2) .or ["A = B".toList, "C = D".toList]) ∧
      Plan.repeatingOf t =
        .split (.fragments .or 3) .or ["A = B".toList, "C = D".toList, "A = B".toList] :=
  ⟨rfl, rfl⟩

def readAtRepeating (maxDepth : Nat) : (levels depth : Nat) → Text → Logged Expression
  | 0, _, _ => .fail (.tooDeep maxDepth)
  | levels + 1, depth, t =>
    (Plan.repeatingOf t).carriedOut (readAtRepeating maxDepth levels (depth + 1)) depth

/-- Reads a text, and every fragment in it as often as it occurs. -/
def readRepeating (limits : Limits) (input : Text) : Logged Expression :=
  let bytes := byteSize input
  if limits.maxBytes < bytes then .fail (.tooLong bytes limits.maxBytes)
  else (readAtRepeating limits.maxDepth (limits.maxDepth + 1) 0 input).closed input

/-! ## Reading once is enough -/

section Once

variable {maxDepth levels depth : Nat} {op : Operator} {piece t : Text} {parts : List Text}

theorem Plan.carriedOut_result_eq {f g : Text → Logged Expression}
    (same : ∀ t, (g t).result = (f t).result) (depth : Nat) (plan : Plan) :
    (plan.carriedOut g depth).result = (plan.carriedOut f depth).result := by
  cases plan with
  | settled result => rfl
  | unwrap remark inner => exact same inner
  | split remark op parts => exact congrArg (Except.map (combine op)) (each_result_eq same parts)

theorem Plan.single_ne_split {remark : Remark} (t : Text) :
    single t (Token.scan t) ≠ .split remark op parts := by
  rcases single_cases t with ⟨_, plan, -⟩ | ⟨_, _, -, plan⟩ | ⟨_, _, _, -, -, -, plan⟩
  all_goals simp [plan]

theorem Plan.layered_ne_fragments {o : Operator} {count : Nat} (t : Text) (ts : List Token) :
    layered t ts ≠ .split (.fragments o count) op parts := by
  unfold layered
  split
  · split <;> simp
  · split
    · simp
    · dsimp only
      split <;> simp

/-- Only a piece with one operator is cut into fragments. -/
theorem Plan.of_eq_flat {o : Operator} {count : Nat}
    (plan : Plan.of t = .split (.fragments o count) op parts) : Plan.of t = flat o (trim t) := by
  rcases of_cases t with ⟨-, blank⟩ | ⟨fault, failed, -⟩ | ⟨-, -, -, plans⟩
  · cases blank.symm.trans plan
  · cases failed.symm.trans plan
  · rcases plans with ⟨-, none⟩ | ⟨p, -, -, one⟩ | ⟨-, both⟩
    · exact absurd (none.symm.trans plan) (single_ne_split (trim t))
    · have made := one.symm.trans plan
      simp only [flat] at made
      split at made
      · cases made
      · obtain ⟨rfl, -⟩ := Remark.fragments.inj (Plan.split.inj made).1
        exact one
    · exact absurd (both.symm.trans plan) (layered_ne_fragments (trim t) _)

theorem Plan.repeatingOf_cases (t : Text) :
    repeatingOf t = Plan.of t ∨
      ∃ op, Plan.of t = flat op (trim t) ∧ repeatingOf t = repeating op (trim t) := by
  unfold repeatingOf
  split
  · next op count _ _ plan => exact .inr ⟨op, of_eq_flat plan, rfl⟩
  · exact .inl rfl

/-- What is read of a part that is not blank brings no blank with it. -/
theorem blank_notMem_of_readAt {e : Expression} (read : (readAt maxDepth levels depth t).result = .ok e)
    (filled : ¬ Blank t) (op : Operator) : .blank ∉ operandsFor op e := by
  have leaves : Over (fun _ => True) e := (reads_of_readAt read).over filled fun _ _ _ _ => trivial
  intro mem
  have inside : .blank ∈ [e].flatMap (operandsFor op) := by simpa using mem
  cases over_of_mem_flatMap (by simpa using leaves) _ inside

/-- Parts that occur again need not be read again, if they are not blank. -/
theorem combine_each_eraseDups (filled : ∀ p ∈ parts, ¬ Blank p) :
    (Logged.each (readAt maxDepth levels depth) parts.eraseDups).result.map (combine op) =
      (Logged.each (readAt maxDepth levels depth) parts).result.map (combine op) := by
  cases read : (Logged.each (readAt maxDepth levels depth) parts).result with
  | ok es =>
      obtain ⟨meaning, each, rfl⟩ := exists_meaning read
      have fewer : ∀ p ∈ parts.eraseDups, (readAt maxDepth levels depth p).result = .ok (meaning p) :=
        fun p hp => each p (List.mem_eraseDups.mp hp)
      have absorbed : combine op (parts.eraseDups.map meaning) = combine op (parts.map meaning) :=
        combine_map_eraseDups fun p hp => blank_notMem_of_readAt (each p hp) (filled p hp) op
      rw [each_result_of_ok meaning fewer, Except.map, absorbed]
      rfl
  | error fault =>
      -- No part before the one at fault is the same, so it is still the first one at fault.
      obtain ⟨before, p, behind, rfl, earlier, failed⟩ := each_result_eq_error_iff.mp read
      have new : p ∉ before := by
        intro again
        obtain ⟨e, he⟩ := earlier p again
        cases he.symm.trans failed
      have first : (before ++ p :: behind).eraseDups =
          before.eraseDups ++ p :: ((behind.removeAll before).filter fun q => !q == p).eraseDups := by
        rw [List.eraseDups_append, List.cons_removeAll, if_pos (by simpa using new), List.eraseDups_cons]
      have still : (Logged.each (readAt maxDepth levels depth) (before ++ p :: behind).eraseDups).result =
          .error fault := by
        refine each_result_eq_error_iff.mpr ⟨before.eraseDups, p, _, first, fun q hq => ?_, failed⟩
        exact earlier q (List.mem_eraseDups.mp hq)
      rw [still]

theorem Plan.repeating_result_eq (maxDepth levels depth : Nat) (op : Operator) (piece : Text) :
    ((repeating op piece).carriedOut (readAt maxDepth levels (depth + 1)) depth).result =
      ((flat op piece).carriedOut (readAt maxDepth levels (depth + 1)) depth).result := by
  by_cases filled : ∀ p ∈ fragments op piece, ¬ Blank p
  · have some : (fragments op piece).any (·.all isBlank) = false := by simpa [Blank] using filled
    simp only [repeating, flat, some, Bool.false_eq_true, if_false]
    exact (combine_each_eraseDups filled).symm
  · have none : (fragments op piece).any (·.all isBlank) = true := by simpa [Blank] using filled
    simp only [repeating, flat, none, if_true]

theorem readAtRepeating_result_eq (maxDepth levels depth : Nat) (t : Text) :
    (readAtRepeating maxDepth levels depth t).result = (readAt maxDepth levels depth t).result := by
  induction levels generalizing depth t with
  | zero => rfl
  | succ levels ih =>
      rw [readAtRepeating, readAt_succ, Plan.carriedOut_result_eq (ih (depth + 1))]
      rcases Plan.repeatingOf_cases t with same | ⟨op, once, again⟩
      · rw [same]
      · rw [again, once, Plan.repeating_result_eq]

end Once

/-- A piece with one operator is read as the same expression, or has the same fault with the same message,
if its fragments are read as often as they occur, with whatever levels are left at whatever depth. And so
is every text, if that is done wherever one is cut into fragments. -/
theorem result_eq_repeating :
    (∀ (maxDepth levels depth : Nat) (op : Operator) (piece : Text),
      ((Plan.flat op piece).carriedOut (readAt maxDepth levels (depth + 1)) depth).result =
        ((Plan.repeating op piece).carriedOut (readAt maxDepth levels (depth + 1)) depth).result) ∧
    ∀ (limits : Limits) (input : Text),
      (read limits input).result = (readRepeating limits input).result := by
  constructor
  · intro maxDepth levels depth op piece
    exact (Plan.repeating_result_eq maxDepth levels depth op piece).symm
  · intro limits input
    simp only [read, readRepeating]
    split
    · rfl
    · rw [closed_result, closed_result, readAtRepeating_result_eq]

end ChoiceLogic.Reading
