import ChoiceLogic.Proofs.Reading.Levels
import ChoiceLogic.Proofs.Reading.RoundTrip

/-! # Texts in parentheses

A text that can be read is read as the same expression inside parentheses, one level deeper, and so
inside several pairs. Texts in parentheses can be put together with an operator between them, and are
read as the combination of what each of them is read as, if both operators occur: then the whole is cut
just where it was put together. With one operator only, all parentheses would be dropped first.
-/

namespace ChoiceLogic.Reading

open Markup Text Expression

variable {maxDepth levels depth : Nat} {t : Text} {e : Expression}

/-- A trimmed text that is read has a sign, and its parentheses are balanced. -/
theorem sign_balanced_of_readAt (trimmed : Trimmed t)
    (h : (readAt maxDepth levels depth t).result = .ok e) :
    Assignment.sign <:+: t ∧ Balanced t := by
  obtain ⟨levels, rfl⟩ : ∃ l, levels = l + 1 := by
    cases levels with
    | zero => simp [readAt, Logged.fail] at h
    | succ levels => exact ⟨levels, rfl⟩
  rcases Plan.of_cases t with ⟨blank, -⟩ | ⟨fault, plan, -⟩ | ⟨sign, -, balanced, -⟩
  · exact absurd (trimmed.2 ▸ trim_blank blank) trimmed.1
  · rw [readAt_settled plan] at h
    cases h
  · exact ⟨sign, trimmed.2 ▸ balanced⟩

/-! ## One pair of parentheses -/

/-- Around a text with no operator or with both, the parentheses are dropped. -/
theorem plan_enclosed_unwrap (sign : Assignment.sign <:+: t) (balanced : Balanced t)
    (shape : (∀ op, .mark (.operator op) ∉ Token.scan t) ∨ ∀ op, .mark (.operator op) ∈ Token.scan t) :
    ∃ remark, Plan.of ('(' :: (t ++ [')'])) = .unwrap remark t := by
  have piece := Plan.of_trimmed (trimmed_enclosed t) (sign.trans ⟨['('], [')'], rfl⟩)
  rcases shape with neither | both
  · have marks : ∀ op, .mark (.operator op) ∉ Token.scan ('(' :: (t ++ [')'])) :=
      fun op => mt operator_mem_scan_enclosed_iff.mp (neither op)
    rw [Plan.ofPiece_eq_single balanced.enclosed marks, Plan.single_eq_unwrap balanced] at piece
    exact ⟨_, piece⟩
  · have marks : ∀ op, .mark (.operator op) ∈ Token.scan ('(' :: (t ++ [')'])) :=
      fun op => operator_mem_scan_enclosed_iff.mpr (both op)
    rw [Plan.ofPiece_eq_layered balanced.enclosed marks, Plan.layered_eq_unwrap balanced] at piece
    exact ⟨_, piece⟩

/-- A text with one operator has the same fragments inside parentheses. -/
theorem plan_enclosed_flat {op : Operator} (sign : Assignment.sign <:+: t) (balanced : Balanced t)
    (found : .mark (.operator op) ∈ Token.scan t)
    (only : ∀ o, o ≠ op → .mark (.operator o) ∉ Token.scan t)
    (filled : ∀ p ∈ Plan.fragments op t, ¬ Blank p) :
    ∃ remark, Plan.of ('(' :: (t ++ [')'])) = .split remark op (Plan.fragments op t).eraseDups := by
  have piece := Plan.of_trimmed (trimmed_enclosed t) (sign.trans ⟨['('], [')'], rfl⟩)
  have others : ∀ o, o ≠ op → .mark (.operator o) ∉ Token.scan ('(' :: (t ++ [')'])) :=
    fun o other => mt operator_mem_scan_enclosed_iff.mp (only o other)
  have same : Plan.fragments op ('(' :: (t ++ [')'])) = Plan.fragments op t := by
    rw [Plan.fragments_eq, stripped_enclosed, Plan.fragments_eq]
  rw [Plan.ofPiece_eq_flat balanced.enclosed (operator_mem_scan_enclosed_iff.mpr found) others,
    Plan.flat_eq_split _ same filled] at piece
  exact ⟨_, piece⟩

theorem readAt_enclosed (trimmed : Trimmed t) (h : (readAt maxDepth levels depth t).result = .ok e)
    (more deeper : Nat) : (readAt more (levels + 1) deeper ('(' :: (t ++ [')']))).result = .ok e := by
  obtain ⟨sign, balanced⟩ := sign_balanced_of_readAt trimmed h
  have unwrapped (shape : (∀ op, .mark (.operator op) ∉ Token.scan t) ∨
      ∀ op, .mark (.operator op) ∈ Token.scan t) :
      (readAt more (levels + 1) deeper ('(' :: (t ++ [')']))).result = .ok e := by
    obtain ⟨remark, plan⟩ := plan_enclosed_unwrap sign balanced shape
    rw [readAt_unwrap plan]
    exact readAt_mono_ok h (Nat.le_refl _)
  rcases Plan.operator_cases fun op => .mark (.operator op) ∈ Token.scan t with
    neither | ⟨op, found, only⟩ | both
  · exact unwrapped (.inl neither)
  · -- The parentheses go together with all others, and the level is not needed.
    have piece := (Plan.of_trimmed trimmed sign).trans (Plan.ofPiece_eq_flat balanced found only)
    cases levels with
    | zero => simp [readAt, Logged.fail] at h
    | succ levels =>
        rcases Plan.flat_cases op t with ⟨fault, made, -⟩ | ⟨filled, remark, made⟩
        · rw [readAt_settled (piece.trans made)] at h
          cases h
        · obtain ⟨remark', plan⟩ := plan_enclosed_flat sign balanced found only filled
          rw [readAt_split (piece.trans made)] at h
          have read : (Logged.each (readAt maxDepth levels (depth + 1))
              (Plan.fragments op t).eraseDups).result ≠ .error (.tooDeep maxDepth) := by
            intro failed
            simp [failed, Except.map] at h
          rw [readAt_split plan, ← h,
            each_result_congr (fun p _ cut => readAt_mono cut (Nat.le_succ levels)) read]
  · exact unwrapped (.inr both)

/-! ## One text in several pairs -/

/-- A text in so many pairs of parentheses, one around the other. -/
def wrapped : (pairs : Nat) → Text → Text
  | 0, t => t
  | pairs + 1, t => '(' :: (wrapped pairs t ++ [')'])

theorem trimmed_wrapped (trimmed : Trimmed t) (pairs : Nat) : Trimmed (wrapped pairs t) := by
  cases pairs with
  | zero => exact trimmed
  | succ pairs => exact trimmed_enclosed _

theorem readAt_wrapped (trimmed : Trimmed t) (h : (readAt maxDepth levels depth t).result = .ok e)
    (pairs more deeper : Nat) :
    (readAt more (levels + pairs) deeper (wrapped pairs t)).result = .ok e := by
  induction pairs generalizing deeper with
  | zero => exact readAt_mono_ok h (Nat.le_refl _)
  | succ pairs ih => exact readAt_enclosed (trimmed_wrapped trimmed pairs) (ih deeper) more deeper

/-- More parentheses around a text change nothing about what it is read as. Each pair takes no more
than one level. -/
theorem read_wrapped (trimmed : Trimmed t) {limits : Limits} (h : (read limits t).result = .ok e)
    (pairs : Nat) (roomy : Limits) (deep : limits.maxDepth + pairs ≤ roomy.maxDepth)
    (fits : (wrapped pairs t).byteSize ≤ roomy.maxBytes) :
    (read roomy (wrapped pairs t)).result = .ok e := by
  have inside := readAt_wrapped trimmed (readAt_of_read h) pairs roomy.maxDepth 0
  rw [read_result fits]
  exact readAt_mono_ok inside (by omega)

/-- Three pairs around groups side by side and a value with parentheses of its own. -/
theorem read_wrapped_groups :
    let a : Expression := .assignment ⟨['A'], ['B'], by decide, by decide⟩
    let c : Expression := .assignment ⟨['C'], "(D)".toList, by decide, by decide⟩
    let e : Expression := .assignment ⟨['E'], ['F'], by decide, by decide⟩
    let g : Expression := .assignment ⟨['G'], "H AND".toList, by decide, by decide⟩
    let t : Text := "(A = B) AND C = (D) AND (E = F OR G = H AND)".toList
    let meaning := combine .and [a, c, combine .or [e, g]]
    Trimmed t ∧ (read ⟨2, 44⟩ t).result = .ok meaning ∧
      wrapped 3 t = "(((".toList ++ t ++ ")))".toList ∧ (wrapped 3 t).byteSize ≤ 50 ∧
      (read ⟨5, 50⟩ (wrapped 3 t)).result = .ok meaning := by
  intro a c e g t meaning
  have trimmed : Trimmed t := by decide
  have bare : (read ⟨2, 44⟩ t).result = .ok meaning := by
    have plan : Plan.of t = .split (.segments .and 3) .and
      ["(A = B)".toList, "C = (D)".toList, "(E = F OR G = H AND)".toList] := rfl
    have parts : (Logged.each (readAt 2 2 1)
      ["(A = B)".toList, "C = (D)".toList, "(E = F OR G = H AND)".toList]).result =
        .ok [a, c, combine .or [e, g]] := rfl
    rw [read_result (by decide), readAt_split plan, parts]
    rfl
  have fits : (wrapped 3 t).byteSize ≤ 50 := by decide
  exact ⟨trimmed, bare, rfl, fits, read_wrapped trimmed bare 3 ⟨5, 50⟩ (by decide) fits⟩

/-! ## Several texts in parentheses -/

/-- Texts in parentheses with an operator between them. -/
def joinedGroups (op : Operator) (ts : List Text) : Text :=
  op.separator.intercalate (ts.map fun t => '(' :: (t ++ [')']))

variable {op other : Operator} {ts : List Text}

private theorem groups_ne_nil (two : 2 ≤ ts.length) :
    (ts.map fun t => '(' :: (t ++ [')'])) ≠ [] := by
  intro none
  simp [List.map_eq_nil_iff.mp none] at two

theorem mark_mem_scan_joinedGroups {m : Mark} (two : 2 ≤ ts.length) :
    .mark m ∈ Token.scan (joinedGroups op ts) ↔
      (∃ t ∈ ts, .mark m ∈ Token.scan ('(' :: (t ++ [')']))) ∨ m = .operator op := by
  have apart : ∀ q ∈ (ts.map fun t => '(' :: (t ++ [')'])).dropLast, ¬ EndsInOperator q := by
    rw [← List.map_dropLast]
    exact List.forall_mem_map.mpr fun t _ => not_endsInOperator_enclosed t
  rw [joinedGroups, mark_mem_scan_intercalate (groups_ne_nil two) apart, List.length_map]
  refine or_congr ?_ (and_iff_right two)
  constructor
  · rintro ⟨q, hq, mem⟩
    obtain ⟨t, ht, rfl⟩ := List.mem_map.mp hq
    exact ⟨t, ht, mem⟩
  · rintro ⟨t, ht, mem⟩
    exact ⟨_, List.mem_map_of_mem ht, mem⟩

theorem plan_joinedGroups (two : 2 ≤ ts.length)
    (each : ∀ t ∈ ts, Assignment.sign <:+: t ∧ Balanced t) (differ : other ≠ op)
    (mixed : ∃ t ∈ ts, .mark (.operator other) ∈ Token.scan t) :
    ∃ remark, Plan.of (joinedGroups op ts) =
      .split remark op (ts.map fun t => '(' :: (t ++ [')'])) := by
  let groups := ts.map fun t => '(' :: (t ++ [')'])
  have trimmed : ∀ q ∈ groups, Trimmed q := List.forall_mem_map.mpr fun t _ => trimmed_enclosed t
  have balanced : ∀ q ∈ groups, Balanced q :=
    List.forall_mem_map.mpr fun t ht => (each t ht).2.enclosed
  have closed : ∀ q ∈ groups, Closed q :=
    List.forall_mem_map.mpr fun t ht => closed_enclosed (each t ht).2
  have apart : ∀ q ∈ groups, ¬ EndsInOperator q :=
    List.forall_mem_map.mpr fun t _ => not_endsInOperator_enclosed t
  obtain ⟨t, ht, inside⟩ := mixed
  have sign : Assignment.sign <:+: joinedGroups op ts :=
    ((each t ht).1.trans ⟨['('], [')'], rfl⟩).trans
      (infix_intercalate op.separator (List.mem_map_of_mem ht))
  have both : ∀ o, .mark (.operator o) ∈ Token.scan (joinedGroups op ts) := by
    intro o
    by_cases same : o = op
    · exact (mark_mem_scan_joinedGroups two).mpr (.inr (congrArg _ same))
    · have this : o = other := by cases o <;> cases op <;> cases other <;> first | rfl | contradiction
      exact (mark_mem_scan_joinedGroups two).mpr
        (.inl ⟨t, ht, operator_mem_scan_enclosed_iff.mpr (this ▸ inside)⟩)
  obtain ⟨first, second, others, parts⟩ : ∃ p q rest, groups = p :: q :: rest := by
    match groups, show 2 ≤ groups.length by simpa [groups] using two with
    | p :: q :: rest, _ => exact ⟨p, q, rest, rfl⟩
  have joined : joinedGroups op ts = op.separator.intercalate (first :: second :: others) :=
    congrArg op.separator.intercalate parts
  have whole : Plan.of (joinedGroups op ts) = Plan.ofPiece (joinedGroups op ts) :=
    Plan.of_trimmed (Trimmed.intercalate _ (groups_ne_nil two) trimmed) sign
  rw [parts] at trimmed balanced closed apart
  have found : segments (Token.scan (joinedGroups op ts)) =
      (first, (second :: others).map (op, ·)) := by
    rw [joined]
    exact segments_intercalate balanced closed fun q hq => apart q ((List.dropLast_sublist _).mem hq)
  have same : (first :: second :: others).map trim = groups := by
    rw [parts]
    exact (List.map_congr_left fun q hq => (trimmed q hq).2).trans (List.map_id _)
  refine ⟨.segments op (others.length + 2), ?_⟩
  rw [whole, Plan.ofPiece_eq_layered (joined ▸ Balanced.intercalate op balanced) both,
    Plan.layered_eq_split found fun q hq => (trimmed q hq).2.symm ▸ (trimmed q hq).1, same]

/-- Texts that can be read are put together in parentheses and read as the combination of what each
is read as. It takes two more levels, one for the operator and one for the parentheses. -/
theorem read_joinedGroups (op other : Operator) (differ : other ≠ op) (maxDepth : Nat)
    (texts : List (Text × Expression)) (two : 2 ≤ texts.length)
    (each : ∀ p ∈ texts, Trimmed p.1 ∧ ∃ maxBytes, (read ⟨maxDepth, maxBytes⟩ p.1).result = .ok p.2)
    (mixed : ∃ p ∈ texts, .mark (.operator other) ∈ Token.scan p.1) (limits : Limits)
    (deep : maxDepth + 2 ≤ limits.maxDepth)
    (fits : (joinedGroups op (texts.map (·.1))).byteSize ≤ limits.maxBytes) :
    (read limits (joinedGroups op (texts.map (·.1)))).result =
      .ok (combine op (texts.map (·.2))) := by
  have alone (p : Text × Expression) (hp : p ∈ texts) :
      (readAt maxDepth (maxDepth + 1) 0 p.1).result = .ok p.2 := by
    obtain ⟨-, maxBytes, read⟩ := each p hp
    exact readAt_of_read read
  have readable : ∀ t ∈ texts.map (·.1), Assignment.sign <:+: t ∧ Balanced t :=
    List.forall_mem_map.mpr fun p hp => sign_balanced_of_readAt (each p hp).1 (alone p hp)
  have token : ∃ t ∈ texts.map (·.1), .mark (.operator other) ∈ Token.scan t := by
    obtain ⟨p, hp, inside⟩ := mixed
    exact ⟨p.1, List.mem_map_of_mem hp, inside⟩
  obtain ⟨remark, plan⟩ := plan_joinedGroups (by simpa using two) readable differ token
  have group (p : Text × Expression) (hp : p ∈ texts) :
      (readAt limits.maxDepth limits.maxDepth 1 ('(' :: (p.1 ++ [')']))).result = .ok p.2 :=
    readAt_mono_ok (readAt_enclosed (each p hp).1 (alone p hp) limits.maxDepth 1) deep
  rw [read_result fits, readAt_split plan, each_map, each_map, each_result_of_ok (·.2) group]
  rfl

/-- A value keeps its own parentheses, because the other text brings in the second operator. -/
theorem read_joinedGroups_value_in_parentheses :
    let a : Expression := .assignment ⟨['A'], "(B)".toList, by decide, by decide⟩
    let c : Expression := .assignment ⟨['C'], ['D'], by decide, by decide⟩
    let e : Expression := .assignment ⟨['E'], ['F'], by decide, by decide⟩
    let texts := [("A = (B)".toList, a), ("C = D OR E = F".toList, combine .or [c, e])]
    let whole : Text := "(A = (B)) AND (C = D OR E = F)".toList
    Operator.or ≠ .and ∧ 2 ≤ texts.length ∧
      (∀ p ∈ texts, Trimmed p.1 ∧ ∃ maxBytes, (read ⟨1, maxBytes⟩ p.1).result = .ok p.2) ∧
      (∃ p ∈ texts, .mark (.operator .or) ∈ Token.scan p.1) ∧
      joinedGroups .and (texts.map (·.1)) = whole ∧ byteSize whole ≤ 30 ∧
      (read ⟨3, 30⟩ whole).result = .ok (combine .and [a, combine .or [c, e]]) := by
  intro a c e texts whole
  have differ : Operator.or ≠ .and := by decide
  have leaf : (read ⟨1, 30⟩ "A = (B)".toList).result = .ok a := rfl
  have operation : (read ⟨1, 30⟩ "C = D OR E = F".toList).result = .ok (combine .or [c, e]) := by
    have plan : Plan.of "C = D OR E = F".toList =
      .split (.fragments .or 2) .or ["C = D".toList, "E = F".toList] := rfl
    have parts : (Logged.each (readAt 1 1 1) ["C = D".toList, "E = F".toList]).result =
      .ok [c, e] := rfl
    rw [read_result (by decide), readAt_split plan, parts]
    rfl
  have each : ∀ p ∈ texts, Trimmed p.1 ∧ ∃ maxBytes, (read ⟨1, maxBytes⟩ p.1).result = .ok p.2 := by
    simp only [texts, List.mem_cons, List.not_mem_nil, or_false]
    rintro p (rfl | rfl)
    · exact ⟨by decide, 30, leaf⟩
    · exact ⟨by decide, 30, operation⟩
  have mixed : ∃ p ∈ texts, .mark (.operator .or) ∈ Token.scan p.1 :=
    ⟨_, .tail _ (.head _), by decide⟩
  have joined : joinedGroups .and (texts.map (·.1)) = whole := by decide
  have fits : byteSize whole ≤ 30 := by decide
  refine ⟨differ, by decide, each, mixed, joined, fits, ?_⟩
  have read := read_joinedGroups .and .or differ 1 texts (by decide) each mixed ⟨3, 30⟩ (by decide)
    (joined ▸ fits)
  rwa [joined] at read

end ChoiceLogic.Reading
