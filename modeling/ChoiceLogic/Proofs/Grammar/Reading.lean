import ChoiceLogic.Proofs.Grammar.Layout
import ChoiceLogic.Proofs.Reading.Steps

/-! # Reading sentences

A sentence is read as what it means, on whichever of the paths its operators lead to. With one operator
all its assignments are read at once, and merging makes that the same as reading group by group. With
both operators the outermost operands are read one by one.
-/

namespace ChoiceLogic.Grammar

open Markup Text Reading

def Leaf.meaning (a : Leaf) : Expression :=
  a.operand.meaning

/-! ## Sentences with one operator -/

section OneOperator

variable {op : Operator}

/-- What cutting at the operator makes of a text that means one expression. -/
def CutInto (op : Operator) (t : Text) (e : Expression) (leaves : List Leaf) : Prop :=
  Text.cut op.separator t = leaves.map Leaf.text ∧ leaves ≠ [] ∧
    Expression.combine op [e] = Expression.combine op (leaves.map Leaf.meaning)

theorem Leaf.canonical {leaves : List Leaf} : ∀ e ∈ leaves.map Leaf.meaning, e.Canonical :=
  List.forall_mem_map.mpr fun a _ => (Sentence.operand a.operand).canonical

theorem cut_parts {ps : List Part}
    (each : ∀ p ∈ ps, ∃ leaves, CutInto op (stripped p.text) p.operand.meaning leaves) :
    ∃ leaves : List Leaf, ps.flatMap (fun p => Text.cut op.separator (stripped p.text)) =
        leaves.map Leaf.text ∧ (ps ≠ [] → leaves ≠ []) ∧
      ∀ xs : List Expression, (∀ e ∈ xs, e.Canonical) →
        Expression.combine op (xs ++ ps.map (·.operand.meaning)) =
          Expression.combine op (xs ++ leaves.map Leaf.meaning) := by
  induction ps with
  | nil => exact ⟨[], rfl, by simp, fun _ _ => rfl⟩
  | cons p ps ih =>
      obtain ⟨first, cut, some, same⟩ := each p (.head ps)
      obtain ⟨later, cuts, -, laterSame⟩ := ih fun q hq => each q (.tail p hq)
      have canonical : ∀ e ∈ ps.map (·.operand.meaning), e.Canonical :=
        List.forall_mem_map.mpr fun q _ => (Sentence.operand q.operand).canonical
      have operand : ∀ e ∈ [p.operand.meaning], e.Canonical := by
        intro e he
        exact List.mem_singleton.mp he ▸ (Sentence.operand p.operand).canonical
      refine ⟨first ++ later, ?_, by simp [some], fun xs hxs => ?_⟩
      · rw [List.flatMap_cons, cut, cuts, List.map_append]
      · have both : ∀ e ∈ xs ++ first.map Leaf.meaning, e.Canonical := by
          intro e he
          exact (List.mem_append.mp he).elim (hxs e) (Leaf.canonical e)
        calc Expression.combine op (xs ++ (p :: ps).map (·.operand.meaning))
            = Expression.combine op (xs ++ [p.operand.meaning] ++ ps.map (·.operand.meaning)) := by simp
          _ = Expression.combine op (xs ++ [Expression.combine op [p.operand.meaning]] ++
                ps.map (·.operand.meaning)) :=
              (Expression.combine_append hxs operand canonical (by simp)).symm
          _ = Expression.combine op (xs ++ first.map Leaf.meaning ++ ps.map (·.operand.meaning)) := by
              rw [same]
              exact Expression.combine_append hxs Leaf.canonical canonical (by simpa using some)
          _ = Expression.combine op (xs ++ (first ++ later).map Leaf.meaning) := by
              rw [laterSame _ both]
              simp

/-- Without its parentheses, a sentence with one operator is cut into assignments that mean the same
together. -/
theorem Sentence.cut_stripped (s : Sentence) (only : ∀ o, s.uses o → o = op) : ∀ g h : Gap,
    ∃ leaves, CutInto op (stripped (g.text ++ s.text ++ h.text)) s.meaning leaves := by
  induction s using Sentence.induction with
  | leaf family left right value =>
      intro g h
      let a : Leaf := ⟨g, family, left, right, value, h⟩
      have whole : Text.cut op.separator a.text = [a.text] := by
        rw [op.separator_eq_spaced]
        exact cut_of_not_inside (a.absent_operator op).not_inside
      refine ⟨[a], ?_, by simp, rfl⟩
      rw [stripped_leaf]
      exact whole
  | group left s right ih =>
      intro g h
      rw [stripped_group]
      exact ih only (g.append left) (right.append h)
  | chain o first rest ih =>
      intro g h
      have used : o = op := only o (uses_chain_iff.mpr (.inr rfl))
      subst used
      let parts := rest.parts g first h
      have some : parts ≠ [] := by
        obtain ⟨p, q, others, hparts⟩ := rest.exists_parts g first h
        simp [parts, hparts]
      have each (p : Part) (hp : p ∈ parts) :
          ∃ leaves, CutInto o (stripped p.text) p.operand.meaning leaves := by
        have mem := rest.operand_mem hp
        refine ih p.operand mem (fun x hx => ?_) p.left p.right
        exact only x (uses_chain_iff.mpr (.inl ⟨p.operand, mem, hx⟩))
      obtain ⟨leaves, cuts, nonempty, same⟩ := cut_parts each
      have meanings : first.meaning :: rest.meanings = parts.map (·.operand.meaning) := by
        have operands := congrArg (List.map Operand.meaning) (rest.map_operand_parts g first h)
        rw [List.map_map, List.map_cons, ← rest.meanings_eq] at operands
        exact operands.symm
      have canonical : ∀ e ∈ parts.map (·.operand.meaning), e.Canonical :=
        List.forall_mem_map.mpr fun p _ => (Sentence.operand p.operand).canonical
      refine ⟨leaves, ?_, nonempty some, ?_⟩
      · have apart : ∀ q ∈ ((parts.map Part.text).map stripped).dropLast, ¬ EndsIn o.name q := by
          intro q hq ends
          obtain ⟨t, ht, rfl⟩ := List.mem_map.mp ((List.dropLast_sublist _).mem hq)
          obtain ⟨p, hp, rfl⟩ := List.mem_map.mp ht
          exact (Sentence.operand p.operand).not_endsInOperator_stripped p.left p.right ⟨o, ends⟩
        rw [text, rest.intercalate_parts o g first h, stripped_intercalate, o.separator_eq_spaced,
          cut_intercalate_flatMap o.isWord_name (by simpa using some) apart, List.flatMap_map,
          List.flatMap_map, ← o.separator_eq_spaced]
        exact cuts
      · rw [meaning, meanings, Expression.combine_combine canonical (by simpa using some)]
        simpa using same [] (by simp)

/-- A sentence means the combination of what it means, if the operator is used in it. -/
theorem Sentence.combine_meaning (s : Sentence) (only : ∀ o, s.uses o → o = op) (used : s.uses op) :
    Expression.combine op [s.meaning] = s.meaning := by
  induction s using Sentence.induction with
  | leaf family left right value => cases used
  | group left s right ih => exact ih only used
  | chain o first rest ih =>
      obtain rfl := only o (uses_chain_iff.mpr (.inr rfl))
      refine Expression.combine_combine (fun e he => ?_) (by simp)
      rw [rest.meanings_eq, ← List.map_cons] at he
      obtain ⟨p, -, rfl⟩ := List.mem_map.mp he
      exact (Sentence.operand p).canonical

end OneOperator

/-! ## Plans for sentences -/

namespace Sentence

variable {op : Operator}

theorem plan_padded (s : Sentence) (g h : Gap) :
    Plan.of (g.text ++ s.text ++ h.text) = Plan.of s.text := by
  rw [Plan.of_padded s.trimmed g.blank h.blank s.sign_inside, Plan.of_trimmed s.trimmed s.sign_inside]

theorem operator_mem_iff (s : Sentence) (op : Operator) :
    .mark (.operator op) ∈ Token.scan s.text ↔ s.uses op := by
  simpa [Gap.none] using s.operator_mem_scan_iff op Gap.none Gap.none

theorem plan_of_one (s : Sentence) (only : ∀ o, s.uses o → o = op) (used : s.uses op) :
    ∃ (remark : Remark) (leaves : List Leaf),
      Plan.of s.text = .split remark op (leaves.map Leaf.text).eraseDups ∧
      Expression.combine op (leaves.map Leaf.meaning) = s.meaning := by
  obtain ⟨leaves, cut, -, same⟩ := s.cut_stripped only Gap.none Gap.none
  simp only [Gap.none, List.nil_append, List.append_nil] at cut
  rw [← Plan.fragments_eq] at cut
  have filled : ∀ p ∈ leaves.map Leaf.text, ¬ Blank p := by
    intro p hp blank
    obtain ⟨a, -, rfl⟩ := List.mem_map.mp hp
    have inner := a.trimmed_operand.trim_padded a.before.blank a.behind.blank
    exact a.trimmed_operand.1 (inner ▸ trim_blank blank)
  have others : ∀ o, o ≠ op → .mark (.operator o) ∉ Token.scan s.text :=
    fun o other mem => other (only o ((s.operator_mem_iff o).mp mem))
  refine ⟨.fragments op (leaves.map Leaf.text).eraseDups.length, leaves, ?_,
    same.symm.trans (s.combine_meaning only used)⟩
  rw [Plan.of_trimmed s.trimmed s.sign_inside,
    Plan.ofPiece_eq_flat s.balanced ((s.operator_mem_iff op).mpr used) others,
    Plan.flat_eq_split _ cut filled]

theorem plan_of_both {first : Operand} {rest : Chain}
    (both : ∀ o, (Sentence.chain op first rest).uses o) :
    ∃ remark, Plan.of (Sentence.chain op first rest).text =
      .split remark op ((first :: rest.operands).map Operand.text) := by
  let s := Sentence.chain op first rest
  obtain ⟨p, q, others, parts⟩ := rest.exists_parts Gap.none first Gap.none
  have joined : s.text = op.separator.intercalate ((p :: q :: others).map Part.text) := by
    rw [← parts, ← rest.intercalate_parts op Gap.none first Gap.none]
    simp [Gap.none, s, text]
  have apart : ∀ t ∈ ((p :: q :: others).map Part.text).dropLast, ¬ EndsInOperator t :=
    parts ▸ rest.parts_apart
  have balanced : ∀ t ∈ (p :: q :: others).map Part.text, Balanced t :=
    List.forall_mem_map.mpr fun r _ => balanced_padded r.left r.right r.operand.balanced
  have closed : ∀ t ∈ (p :: q :: others).map Part.text, Closed t :=
    List.forall_mem_map.mpr fun r _ => r.operand.closed r.left r.right
  have found : segments (Token.scan s.text) =
      (p.text, (q.text :: others.map Part.text).map (op, ·)) := by
    rw [joined]
    exact segments_intercalate balanced closed apart
  have trims (r : Part) : Text.trim r.text = r.operand.text :=
    r.operand.trimmed.trim_padded r.left.blank r.right.blank
  have filled : ∀ t ∈ (p :: q :: others).map Part.text, Text.trim t ≠ [] :=
    List.forall_mem_map.mpr fun r _ => (trims r).symm ▸ r.operand.trimmed.1
  have operands : ((p :: q :: others).map Part.text).map Text.trim =
      (first :: rest.operands).map Operand.text := by
    rw [← rest.map_operand_parts Gap.none first Gap.none, parts, List.map_map, List.map_map]
    exact List.map_congr_left fun r _ => trims r
  have marks : ∀ o, .mark (.operator o) ∈ Token.scan s.text :=
    fun o => (s.operator_mem_iff o).mpr (both o)
  refine ⟨.segments op ((others.map Part.text).length + 2), ?_⟩
  rw [Plan.of_trimmed s.trimmed s.sign_inside, Plan.ofPiece_eq_layered s.balanced marks,
    Plan.layered_eq_split found filled]
  exact congrArg _ operands

/-- Unless it has just one operator, a group is read by dropping its parentheses. -/
theorem plan_of_group (left : Gap) (s : Sentence) (right : Gap)
    (uses : (∀ o, ¬ s.uses o) ∨ ∀ o, s.uses o) :
    ∃ remark, Plan.of (Sentence.operand (.group left s right)).text =
      .unwrap remark (left.text ++ s.text ++ right.text) := by
  let group := Sentence.operand (.group left s right)
  have shape : group.text = '(' :: ((left.text ++ s.text ++ right.text) ++ [')']) := by
    simp [group, text, Operand.text]
  have inner := balanced_padded left right s.balanced
  have piece := Plan.of_trimmed group.trimmed group.sign_inside
  rcases uses with none | both
  · have marks : ∀ o, .mark (.operator o) ∉ Token.scan group.text :=
      fun o mem => none o ((group.operator_mem_iff o).mp mem)
    rw [Plan.ofPiece_eq_single group.balanced marks, shape] at piece
    rw [shape]
    exact ⟨_, piece.trans (Plan.single_eq_unwrap inner)⟩
  · have marks : ∀ o, .mark (.operator o) ∈ Token.scan group.text :=
      fun o => (group.operator_mem_iff o).mpr (both o)
    rw [Plan.ofPiece_eq_layered group.balanced marks, shape] at piece
    rw [shape]
    exact ⟨_, piece.trans (Plan.layered_eq_unwrap inner)⟩

end Sentence

/-! ## Reading -/

theorem readAt_congr {maxDepth levels depth : Nat} {t u : Text} (same : Plan.of t = Plan.of u) :
    readAt maxDepth levels depth t = readAt maxDepth levels depth u := by
  cases levels with
  | zero => rfl
  | succ levels => simp only [readAt, same]

namespace Sentence

variable {maxDepth : Nat}

/-- A sentence uses no operator, one, or both. -/
theorem uses_cases (s : Sentence) : (∀ o, ¬ s.uses o) ∨
    (∃ op, s.uses op ∧ ∀ o, s.uses o → o = op) ∨ ∀ o, s.uses o := by
  simp only [Operator.forall_iff]
  cases hasAnd : s.uses .and with
  | false =>
      cases hasOr : s.uses .or with
      | false => exact .inl ⟨by simp, by simp⟩
      | true => exact .inr (.inl ⟨.or, hasOr, by simp⟩)
  | true =>
      cases hasOr : s.uses .or with
      | false => exact .inr (.inl ⟨.and, hasAnd, by simp⟩)
      | true => exact .inr (.inr ⟨rfl, rfl⟩)

/-- A sentence is long enough for two levels, because it has a sign. -/
theorem two_levels (s : Sentence) {levels : Nat} (enough : s.text.length / 2 < levels) :
    2 ≤ levels := by
  have long : Assignment.sign.length ≤ s.text.length := s.sign_inside.length_le
  have three : Assignment.sign.length = 3 := rfl
  omega

theorem readAt_of_one (s : Sentence) (op : Operator) (only : ∀ o, s.uses o → o = op)
    (used : s.uses op) (levels depth : Nat) :
    (readAt maxDepth (levels + 2) depth s.text).result = .ok s.meaning := by
  obtain ⟨remark, leaves, plan, combined⟩ := s.plan_of_one only used
  let meaning (t : Text) : Expression := (readAt 0 1 0 t).result.toOption.getD .blank
  have leaf (a : Leaf) : meaning a.text = a.meaning := by
    simp only [meaning, readAt_settled a.plan]
    rfl
  have each : ∀ t ∈ (leaves.map Leaf.text).eraseDups,
      (readAt maxDepth (levels + 1) (depth + 1) t).result = .ok (meaning t) := by
    intro t ht
    obtain ⟨a, -, rfl⟩ := List.mem_map.mp ((Selection.eraseDupsBy_sublist _ _).mem ht)
    rw [readAt_settled a.plan, leaf a]
    rfl
  have filled : ∀ t ∈ leaves.map Leaf.text, .blank ∉ Expression.operandsFor op (meaning t) := by
    intro t ht
    obtain ⟨a, -, rfl⟩ := List.mem_map.mp ht
    exact Expression.blank_notMem_operandsFor_of_leaf ⟨_, leaf a⟩
  have texts : (leaves.map Leaf.text).map meaning = leaves.map Leaf.meaning := by
    rw [List.map_map]
    exact List.map_congr_left fun a _ => leaf a
  rw [readAt_split plan, each_result_of_ok meaning each]
  apply congrArg Except.ok
  rw [Expression.combine_map_eraseDups filled, texts, combined]

/-- Every pair of parentheses and every chain leaves texts that are shorter by two characters. -/
theorem readAt_text (s : Sentence) : ∀ levels depth, s.text.length / 2 < levels →
    (readAt maxDepth levels depth s.text).result = .ok s.meaning := by
  induction s using Sentence.induction with
  | leaf family left right value =>
      intro levels depth enough
      obtain ⟨levels, rfl⟩ : ∃ l, levels = l + 1 := ⟨levels - 1, by omega⟩
      have plan := (Leaf.mk Gap.none family left right value Gap.none).plan
      simp only [Leaf.text, Gap.none, List.nil_append, List.append_nil] at plan
      exact readAt_settled plan
  | group left s right ih =>
      intro levels depth enough
      let group := Sentence.operand (.group left s right)
      change group.text.length / 2 < levels at enough
      have shorter : s.text.length + 2 ≤ group.text.length := by
        simp only [group, text, Operand.text, List.length_cons, List.length_append, List.length_nil]
        omega
      have unwrapped (uses : (∀ o, ¬ s.uses o) ∨ ∀ o, s.uses o) :
          (readAt maxDepth levels depth group.text).result = .ok group.meaning := by
        obtain ⟨remark, plan⟩ := plan_of_group left s right uses
        obtain ⟨levels, rfl⟩ : ∃ l, levels = l + 1 := ⟨levels - 1, by omega⟩
        rw [readAt_unwrap plan, readAt_congr (s.plan_padded left right)]
        exact ih levels (depth + 1) (by omega)
      rcases s.uses_cases with none | ⟨op, used, only⟩ | both
      · exact unwrapped (.inl none)
      · have enough := group.two_levels enough
        obtain ⟨levels, rfl⟩ : ∃ l, levels = l + 2 := ⟨levels - 2, by omega⟩
        exact group.readAt_of_one op only used levels depth
      · exact unwrapped (.inr both)
  | chain op first rest ih =>
      intro levels depth enough
      let chain := Sentence.chain op first rest
      change chain.text.length / 2 < levels at enough
      have shorter : ∀ o ∈ first :: rest.operands, o.text.length + 4 ≤ chain.text.length := by
        obtain ⟨long, each⟩ := rest.length_text op
        intro o ho
        simp only [chain, text, List.length_append]
        rcases List.mem_cons.mp ho with rfl | ho
        · omega
        · have := each o ho
          omega
      rcases chain.uses_cases with none | ⟨p, used, only⟩ | both
      · exact absurd (uses_chain_iff.mpr (.inr rfl)) (none op)
      · have enough := chain.two_levels enough
        obtain ⟨levels, rfl⟩ : ∃ l, levels = l + 2 := ⟨levels - 2, by omega⟩
        exact chain.readAt_of_one p only used levels depth
      · obtain ⟨remark, plan⟩ := plan_of_both both
        obtain ⟨levels, rfl⟩ : ∃ l, levels = l + 1 := ⟨levels - 1, by omega⟩
        have operands : ∀ o ∈ first :: rest.operands,
            (readAt maxDepth levels (depth + 1) o.text).result = .ok o.meaning := by
          intro o ho
          have := shorter o ho
          exact ih o ho levels (depth + 1) (by simp only [text]; omega)
        rw [readAt_split plan, each_map, each_result_of_ok Operand.meaning operands]
        apply congrArg Except.ok
        rw [List.map_cons, ← rest.meanings_eq, meaning]

/-- A well-formed text is read as what it means, with blanks around it, under every limit that the
size of the text and half the size of the sentence respect. -/
theorem read_text (s : Sentence) (before behind : Gap) (limits : Limits)
    (fits : (before.text ++ s.text ++ behind.text).byteSize ≤ limits.maxBytes)
    (enough : s.text.byteSize / 2 ≤ limits.maxDepth) :
    (read limits (before.text ++ s.text ++ behind.text)).result = .ok s.meaning := by
  have bytes := s.text.length_le_byteSize
  rw [read_result fits, readAt_congr (s.plan_padded before behind)]
  exact s.readAt_text _ 0 (by omega)

/-- A group inside a group, one of them not needed, and blanks of two kinds. -/
theorem read_text_groups :
    let a : Plain := ⟨['A'], by decide, by decide, by decide, by decide⟩
    let b : Plain := ⟨['B'], by decide, by decide, by decide, by decide⟩
    let tab : Gap := ⟨['\t'], by decide⟩
    let wide : Gap := ⟨[' ', ' '], by decide⟩
    let ab : Operand := .leaf a Gap.none wide b
    let ba : Operand := .leaf b tab Gap.none a
    let either := Sentence.chain .or ab (.last Gap.none tab (.group tab (.operand ba) wide))
    let s := Sentence.chain .and (.group wide either Gap.none) (.last tab Gap.none ab)
    let input := wide.text ++ s.text ++ tab.text
    input = "  (  A =   B OR \t(\tB\t = A  ))\t AND A =   B\t".toList ∧
      input.byteSize ≤ 50 ∧ s.text.byteSize / 2 ≤ 25 ∧ (read ⟨25, 50⟩ input).result = .ok s.meaning := by
  intro a b tab wide ab ba either s input
  have fits : input.byteSize ≤ 50 := by decide
  have enough : s.text.byteSize / 2 ≤ 25 := by decide
  exact ⟨by decide, fits, enough, read_text s wide tab ⟨25, 50⟩ fits enough⟩

end Sentence

end ChoiceLogic.Grammar
