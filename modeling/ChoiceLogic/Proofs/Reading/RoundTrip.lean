import ChoiceLogic.Proofs.Reading.Legible
import ChoiceLogic.Proofs.Reading.Steps

/-! # Reading legible expressions

The text of a legible expression is read as that expression, at an exact price in levels. An
operation over assignments takes one level. Every level of operations above it takes two, one to drop
its parentheses and one to cut at its operator, and the outermost has no parentheses to drop.
-/

namespace ChoiceLogic.Expression

open Markup Reading

variable {op : Operator} {es : List Expression} {e : Expression}

/-! ## Marks -/

theorem Legible.mark_mem_scan_render_iff (h : Legible (.operation op es)) {m : Mark} :
    .mark m ∈ Token.scan (render (.operation op es)) ↔
      (∃ e ∈ es, .mark m ∈ Token.scan e.operandText) ∨ m = .operator op := by
  cases h with
  | operation node each apart bare =>
      have some : es.map operandText ≠ [] := by simpa using node.ne_nil
      rw [render_operation, mark_mem_scan_intercalate some (apart_operandTexts apart), List.length_map]
      refine or_congr ?_ (and_iff_right node.two_le)
      constructor
      · rintro ⟨p, hp, mem⟩
        obtain ⟨e, he, rfl⟩ := List.mem_map.mp hp
        exact ⟨e, he, mem⟩
      · rintro ⟨e, he, mem⟩
        exact ⟨_, List.mem_map_of_mem he, mem⟩

theorem mark_mem_scan_enclosed {m : Mark} {t : Text} (h : .mark m ∈ Token.scan t) :
    .mark m ∈ Token.scan ('(' :: (t ++ [')'])) := by
  rw [Token.scan_enclosed]
  simp [h]

theorem operator_mem_scan_enclosed_iff {t : Text} :
    .mark (.operator op) ∈ Token.scan ('(' :: (t ++ [')'])) ↔ .mark (.operator op) ∈ Token.scan t := by
  rw [Token.scan_enclosed]
  simp

theorem Legible.operator_mem (h : Legible (.operation op es)) :
    .mark (.operator op) ∈ Token.scan (render (.operation op es)) :=
  h.mark_mem_scan_render_iff.mpr (.inr rfl)

theorem Legible.operator_mem_of_nested (h : Legible (.operation op es))
    (nested : ∃ e ∈ es, e.isOperation) (o : Operator) :
    .mark (.operator o) ∈ Token.scan (render (.operation op es)) := by
  by_cases same : o = op
  · exact same ▸ h.operator_mem
  · obtain ⟨e, he, operation⟩ := nested
    cases h with
    | operation node each apart bare =>
        cases e with
        | blank | assignment => cases operation
        | operation p inner =>
            have other : p ≠ op := fun hp => node.flat _ he inner (hp ▸ rfl)
            have this : p = o := by cases o <;> cases p <;> cases op <;> first | rfl | contradiction
            refine (Legible.operation node each apart bare).mark_mem_scan_render_iff.mpr
              (.inl ⟨_, he, ?_⟩)
            rw [operandText_operation]
            exact mark_mem_scan_enclosed (this ▸ (each _ he).operator_mem)

theorem Legible.operator_notMem_of_leaves (h : Legible (.operation op es))
    (leaves : ∀ e ∈ es, e.isOperation = false) (o : Operator) (other : o ≠ op) :
    .mark (.operator o) ∉ Token.scan (render (.operation op es)) := by
  rw [h.mark_mem_scan_render_iff]
  rintro (⟨e, he, mem⟩ | same)
  · cases h with
    | operation node each apart bare =>
        cases each e he with
        | operation => cases leaves _ he
        | assignment ha =>
            rw [operandText_assignment] at mem
            exact ha.mark_notMem o mem
  · exact other (Mark.operator.inj same)

/-! ## Plans -/

private theorem eraseDups_operandTexts (each : ∀ e ∈ es, Legible e)
    (leaves : ∀ e ∈ es, e.isOperation = false) (node : CanonicalNode op es) :
    (es.map operandText).eraseDups = es.map operandText := by
  refine Selection.eraseDupsBy_of_pairwise (List.pairwise_map.mpr ?_)
  refine node.distinct.imp_of_mem fun {x y} hx hy apart => ?_
  -- Legible assignments of one text are one assignment, which would repeat itself.
  rw [beq_eq_false_iff_ne]
  intro same
  cases each x hx with
  | operation => cases leaves _ hx
  | @assignment a ha =>
      cases each y hy with
      | operation => cases leaves _ hy
      | @assignment b hb =>
          rw [operandText_assignment, operandText_assignment] at same
          obtain rfl := hb.eq_of_render_eq ha same
          simp [repeats, alike, Assignment.sharesPart] at apart

theorem Legible.fragments_render (h : Legible (.operation op es))
    (leaves : ∀ e ∈ es, e.isOperation = false) :
    Plan.fragments op (render (.operation op es)) = es.map operandText ∧
      Plan.fragments op ('(' :: (render (.operation op es) ++ [')'])) = es.map operandText := by
  cases h with
  | operation node each apart bare =>
      have some : es.map operandText ≠ [] := by simpa using node.ne_nil
      have plain : ∀ p ∈ es.map operandText, Bare p := by
        intro p hp
        obtain ⟨e, he, rfl⟩ := List.mem_map.mp hp
        rw [operandText_of_not_isOperation (leaves e he)]
        exact bare leaves e he
      have kept : stripped (render (.operation op es)) = render (.operation op es) := by
        rw [render_operation]
        exact stripped_of_bare (bare_intercalate op plain)
      have cut : Text.cut op.separator (render (.operation op es)) = es.map operandText := by
        rw [render_operation, op.separator_eq_spaced]
        apply Text.cut_intercalate op.isWord_name some
        · intro p hp
          obtain ⟨e, he, rfl⟩ := List.mem_map.mp hp
          cases each e he with
          | operation => cases leaves _ he
          | assignment ha =>
              rw [operandText_assignment, ← op.separator_eq_spaced]
              exact Text.occurs_eq_false_iff.mp (ha.noOperator op)
        · intro p hp ends
          exact apart_operandTexts apart p hp ⟨op, ends⟩
      refine ⟨?_, ?_⟩
      · rw [Plan.fragments_eq, kept, cut]
      · rw [Plan.fragments_eq, stripped_enclosed, kept, cut]

/-- An operation over assignments is cut at its operator, with or without parentheses. -/
theorem Legible.plan_of_leaves (h : Legible (.operation op es))
    (leaves : ∀ e ∈ es, e.isOperation = false) (t : Text)
    (ht : t = render (.operation op es) ∨ t = operandText (.operation op es)) :
    ∃ remark, Plan.of t = .split remark op (es.map operandText) := by
  have each : ∀ e ∈ es, Legible e := by cases h with | operation _ each _ _ => exact each
  have found : .mark (.operator op) ∈ Token.scan t := by
    rcases ht with rfl | rfl
    · exact h.operator_mem
    · exact operator_mem_scan_enclosed_iff.mpr h.operator_mem
  have only : ∀ o, o ≠ op → .mark (.operator o) ∉ Token.scan t := by
    intro o other
    rcases ht with rfl | rfl
    · exact h.operator_notMem_of_leaves leaves o other
    · exact mt operator_mem_scan_enclosed_iff.mp (h.operator_notMem_of_leaves leaves o other)
  have parts : Plan.fragments op t = es.map operandText := by
    rcases ht with rfl | rfl
    · exact (h.fragments_render leaves).1
    · exact (h.fragments_render leaves).2
  have filled : ∀ p ∈ es.map operandText, ¬ Text.Blank p := by
    intro p hp blank
    obtain ⟨e, he, rfl⟩ := List.mem_map.mp hp
    have trimmed := (each e he).trimmed_operandText
    exact trimmed.1 (trimmed.2 ▸ Text.trim_blank blank)
  have balanced : Balanced t := by
    rcases ht with rfl | rfl
    · exact h.balanced_render
    · exact h.balanced_operandText
  refine ⟨.fragments op (es.map operandText).length, ?_⟩
  have trimmed : Plan.of t = Plan.ofPiece t := by
    rcases ht with rfl | rfl
    · exact Plan.of_trimmed h.trimmed_render h.sign_infix_render
    · exact Plan.of_trimmed h.trimmed_operandText h.sign_infix_operandText
  rw [trimmed, Plan.ofPiece_eq_flat balanced found only, Plan.flat_eq_split _ parts filled,
    eraseDups_operandTexts each leaves (by cases h with | operation node _ _ _ => exact node)]

/-- An operation over other operations is cut at its operator. -/
theorem Legible.plan_render_of_nested (h : Legible (.operation op es))
    (nested : ∃ e ∈ es, e.isOperation) :
    ∃ remark, Plan.of (render (.operation op es)) = .split remark op (es.map operandText) := by
  have both := h.operator_mem_of_nested nested
  rw [Plan.of_trimmed h.trimmed_render h.sign_infix_render,
    Plan.ofPiece_eq_layered h.balanced_render both]
  cases h with
  | operation node each apart bare =>
      obtain ⟨x, y, rest, rfl⟩ := node.exists_operands
      have found : segments (Token.scan (render (.operation op (x :: y :: rest)))) =
          (x.operandText, (y.operandText :: rest.map operandText).map (op, ·)) := by
        have balanced : ∀ q ∈ (x :: y :: rest).map operandText, Balanced q :=
          List.forall_mem_map.mpr fun e he => (each e he).balanced_operandText
        have closed : ∀ q ∈ (x :: y :: rest).map operandText, Closed q :=
          List.forall_mem_map.mpr fun e he => (each e he).closed_operandText
        rw [render_operation]
        exact segments_intercalate balanced closed (apart_operandTexts apart)
      have trimmed : ∀ p ∈ (x :: y :: rest).map operandText, Text.Trimmed p :=
        List.forall_mem_map.mpr fun e he => (each e he).trimmed_operandText
      have same : ((x :: y :: rest).map operandText).map Text.trim = (x :: y :: rest).map operandText :=
        (List.map_congr_left fun p hp => (trimmed p hp).2).trans (List.map_id _)
      refine ⟨.segments op ((rest.map operandText).length + 2), ?_⟩
      rw [Plan.layered_eq_split found fun p hp => (trimmed p hp).2.symm ▸ (trimmed p hp).1]
      exact congrArg _ same

theorem isOperation_eq_false_of_not_nested (h : ¬ ∃ e ∈ es, e.isOperation) :
    ∀ e ∈ es, e.isOperation = false := by
  intro e he
  exact Bool.eq_false_iff.mpr fun operation => h ⟨e, he, operation⟩

theorem Legible.plan_render (h : Legible (.operation op es)) :
    ∃ remark, Plan.of (render (.operation op es)) = .split remark op (es.map operandText) := by
  by_cases nested : ∃ e ∈ es, e.isOperation
  · exact h.plan_render_of_nested nested
  · exact h.plan_of_leaves (isOperation_eq_false_of_not_nested nested) _ (.inl rfl)

/-- Around an operation over other operations the parentheses are dropped first. -/
theorem Legible.plan_operandText_of_nested (h : Legible (.operation op es))
    (nested : ∃ e ∈ es, e.isOperation) :
    ∃ remark, Plan.of (operandText (.operation op es)) =
      .unwrap remark (render (.operation op es)) := by
  have both : ∀ o, .mark (.operator o) ∈ Token.scan (operandText (.operation op es)) := by
    intro o
    exact operator_mem_scan_enclosed_iff.mpr (h.operator_mem_of_nested nested o)
  rw [Plan.of_trimmed h.trimmed_operandText h.sign_infix_operandText,
    Plan.ofPiece_eq_layered h.balanced_operandText both]
  exact ⟨_, Plan.layered_eq_unwrap h.balanced_render⟩

theorem plan_assignment {a : Assignment} (h : a.Legible) :
    Plan.of a.render = .settled (.ok (.assignment a)) := by
  rw [Plan.of_trimmed a.trimmed_render a.sign_infix_render,
    Plan.ofPiece_eq_single h.balanced h.mark_notMem]
  exact Plan.single_eq_settled h.ungrouped h.parts a.ofParts_family_value

/-! ## Levels -/

/-- How many levels below its own the text of the expression is read at. -/
def levelsNeeded (e : Expression) : Nat :=
  if e.depth ≤ 1 then 0 else if e.depth = 2 then 1 else 2 * e.depth - 4

theorem depth_le_maxDepth (h : e ∈ es) : e.depth ≤ maxDepth es := by
  induction es with
  | nil => cases h
  | cons x es ih =>
      rw [maxDepth]
      rcases List.mem_cons.mp h with rfl | h
      · omega
      · have := ih h
        omega

theorem exists_depth_eq_maxDepth (nonempty : es ≠ []) : ∃ e ∈ es, e.depth = maxDepth es := by
  induction es with
  | nil => exact absurd rfl nonempty
  | cons x es ih =>
      rw [maxDepth]
      by_cases last : es = []
      · exact ⟨x, .head es, by simp [last, maxDepth]⟩
      · obtain ⟨e, he, deepest⟩ := ih last
        by_cases first : e.depth ≤ x.depth
        · exact ⟨x, .head es, by omega⟩
        · exact ⟨e, .tail x he, by omega⟩

theorem Legible.depth_pos (h : Legible e) : 1 ≤ e.depth := by
  cases h with
  | assignment => simp [depth]
  | operation => simp [depth]

theorem depth_of_not_isOperation (h : e.isOperation = false) : e.depth ≤ 1 := by
  cases e with
  | blank | assignment => simp [depth]
  | operation => cases h

/-- The operands are read where the deepest of them is. -/
theorem forall_levels_iff (nonempty : es ≠ []) (levels : Nat) :
    (∀ e ∈ es, 2 * e.depth - 3 < levels) ↔ 2 * maxDepth es - 3 < levels := by
  constructor
  · intro each
    obtain ⟨e, he, deepest⟩ := exists_depth_eq_maxDepth nonempty
    exact deepest ▸ each e he
  · intro deepest e he
    have := depth_le_maxDepth he
    omega

private theorem readAt_operands {maxDepth levels depth : Nat} {t : Text} (node : CanonicalNode op es)
    (operands : ∀ e ∈ es, ∀ depth, (readAt maxDepth levels depth e.operandText).result =
      if 2 * e.depth - 3 < levels then .ok e else .error (.tooDeep maxDepth))
    (plan : ∃ remark, Plan.of t = .split remark op (es.map operandText)) :
    (readAt maxDepth (levels + 1) depth t).result =
      if 2 * Expression.maxDepth es - 3 < levels then .ok (.operation op es)
      else .error (.tooDeep maxDepth) := by
  obtain ⟨remark, plan⟩ := plan
  have nonempty := node.ne_nil
  rw [readAt_split plan, each_map, each_result_eq_ite (fun e => 2 * e.depth - 3 < levels) id
    (.tooDeep maxDepth) fun e he => operands e he (depth + 1), List.map_id]
  by_cases enough : 2 * Expression.maxDepth es - 3 < levels
  · rw [if_pos enough, if_pos ((forall_levels_iff nonempty levels).mpr enough)]
    exact congrArg Except.ok (combine_of_canonicalNode node)
  · rw [if_neg enough, if_neg (mt (forall_levels_iff nonempty levels).mp enough)]
    rfl

theorem levelsNeeded_operation (op : Operator) (some : 1 ≤ maxDepth es) :
    levelsNeeded (.operation op es) = 2 * maxDepth es - 3 + 1 := by
  have deeper : depth (.operation op es) = 1 + maxDepth es := by rw [depth]
  unfold levelsNeeded
  split
  · omega
  · split <;> omega

theorem Legible.one_le_maxDepth (h : Legible (.operation op es)) : 1 ≤ maxDepth es := by
  cases h with
  | operation node each _ _ =>
      obtain ⟨e, he⟩ := List.exists_mem_of_ne_nil es node.ne_nil
      have := (each e he).depth_pos
      have := depth_le_maxDepth he
      omega

theorem Legible.two_le_maxDepth (h : Legible (.operation op es)) (nested : ∃ e ∈ es, e.isOperation) :
    2 ≤ maxDepth es := by
  obtain ⟨e, he, operation⟩ := nested
  cases h with
  | operation node each _ _ =>
      cases e with
      | blank | assignment => cases operation
      | operation p inner =>
          have := (each _ he).one_le_maxDepth
          have := depth_le_maxDepth he
          simp only [depth] at this
          omega

theorem maxDepth_of_leaves (leaves : ∀ e ∈ es, e.isOperation = false) : maxDepth es ≤ 1 := by
  by_cases nonempty : es = []
  · simp [nonempty, maxDepth]
  · obtain ⟨e, he, deepest⟩ := exists_depth_eq_maxDepth nonempty
    exact deepest ▸ depth_of_not_isOperation (leaves e he)

/-- Reading the text of a legible expression, and reading it as an operand. -/
theorem Legible.readAt_eq (h : Legible e) (maxDepth : Nat) : ∀ levels depth,
    (readAt maxDepth levels depth e.render).result =
      (if e.levelsNeeded < levels then .ok e else .error (.tooDeep maxDepth)) ∧
    (readAt maxDepth levels depth e.operandText).result =
      if 2 * e.depth - 3 < levels then .ok e else .error (.tooDeep maxDepth) := by
  induction h with
  | @assignment a ha =>
      intro levels depth
      rw [operandText_assignment, render]
      cases levels with
      | zero => simp [readAt, Logged.fail]
      | succ levels =>
          rw [readAt_settled (plan_assignment ha)]
          simp [levelsNeeded, Expression.depth]
  | @operation op es node each apart bare ih =>
      have whole := Legible.operation node each apart bare
      have needed := levelsNeeded_operation op whole.one_le_maxDepth
      have operands (levels : Nat) : ∀ e ∈ es, ∀ depth,
          (readAt maxDepth levels depth e.operandText).result =
            if 2 * e.depth - 3 < levels then .ok e else .error (.tooDeep maxDepth) :=
        fun e he depth => (ih e he levels depth).2
      have plain : ∀ levels depth,
          (readAt maxDepth levels depth (render (.operation op es))).result =
            if levelsNeeded (.operation op es) < levels then .ok (.operation op es)
            else .error (.tooDeep maxDepth) := by
        intro levels depth
        cases levels with
        | zero => simp [readAt, Logged.fail]
        | succ levels =>
            rw [readAt_operands node (operands levels) whole.plan_render, needed]
            simp only [Nat.add_lt_add_iff_right]
      refine fun levels depth => ⟨plain levels depth, ?_⟩
      cases levels with
      | zero => simp [readAt, Logged.fail]
      | succ levels =>
          by_cases nested : ∃ e ∈ es, e.isOperation
          · -- The pair of parentheses takes a level of its own.
            obtain ⟨remark, plan⟩ := whole.plan_operandText_of_nested nested
            have deep := whole.two_le_maxDepth nested
            have price : 2 * (Expression.operation op es).depth - 3 =
                levelsNeeded (.operation op es) + 1 := by
              rw [needed, Expression.depth]
              omega
            rw [readAt_unwrap plan, plain levels (depth + 1), price]
            simp only [Nat.add_lt_add_iff_right]
          · have leaves := isOperation_eq_false_of_not_nested nested
            have shallow := maxDepth_of_leaves leaves
            have price :
                2 * (Expression.operation op es).depth - 3 = 2 * Expression.maxDepth es - 3 + 1 := by
              have := whole.one_le_maxDepth
              rw [Expression.depth]
              omega
            rw [readAt_operands node (operands levels) (whole.plan_of_leaves leaves _ (.inr rfl)), price]
            simp only [Nat.add_lt_add_iff_right]

theorem read_render_of_legible (legible : e = .blank ∨ e.Legible) {limits : Limits}
    (fits : e.render.byteSize ≤ limits.maxBytes) :
    (read limits e.render).result =
      if e.levelsNeeded ≤ limits.maxDepth then .ok e else .error (.tooDeep limits.maxDepth) := by
  rw [read_result fits]
  rcases legible with rfl | legible
  · rw [render, readAt_settled (Plan.of_blank (by simp [Text.Blank]))]
    simp [levelsNeeded, depth]
  · rw [(legible.readAt_eq limits.maxDepth (limits.maxDepth + 1) 0).1]
    simp only [Nat.lt_succ_iff]

end ChoiceLogic.Expression
