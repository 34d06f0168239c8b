import ChoiceLogic.Proofs.Combine.FixedPoints
import ChoiceLogic.Proofs.Combine.Repeats
import ChoiceLogic.Proofs.Reading.Leaves

/-! # Texts with one operator

A text with one operator is cut at it when its parentheses are gone, and as a rule what is left between
the operators is single assignments. But a parenthesis may have stood within the word of the other
operator. Dropping it brings that operator about, and the fragment that holds it is cut once more, into an
operand that groups its assignments.
-/

namespace ChoiceLogic

open Markup Text

theorem Operator.eq_or_eq {op o : Operator} (other : o ≠ op) (p : Operator) : p = op ∨ p = o := by
  cases op <;> cases o <;> cases p <;> simp_all

namespace Expression

variable {op o : Operator} {es : List Expression} {e x : Expression}

/-- One assignment, or assignments under this operator. -/
inductive Flat (op : Operator) : Expression → Prop where
  | assignment (a : Assignment) : Flat op (.assignment a)
  | operation {operands : List Expression} (leaves : ∀ e ∈ operands, ∃ a, e = .assignment a) :
      Flat op (.operation op operands)

theorem exists_mem_survivors (mem : e ∈ es.flatMap (operandsFor op)) :
    ∃ x ∈ survivors op es, e = x ∨ e.repeats x := by
  obtain ⟨x, kept, same⟩ := Selection.exists_mem_eraseDupsBy repeats mem
  exact ⟨x, survivors_eq op es ▸ (Selection.sorted_perm render _).mem_iff.mpr kept, same⟩

theorem eq_assignment_of_repeats {a : Assignment} (h : e.repeats (.assignment a)) :
    ∃ b, e = .assignment b := by
  cases e with
  | assignment b => exact ⟨b, rfl⟩
  | blank | operation => simp [repeats, alike] at h

section Leaves

variable (leaves : ∀ e ∈ es, ∃ a, e = .assignment a)
include leaves

theorem leaves_survivors : ∀ e ∈ survivors op es, ∃ a, e = .assignment a := by
  intro e he
  have merged := mem_flatMap_of_mem_survivors he
  rw [flatMap_operandsFor_of_leaves leaves] at merged
  exact leaves e merged

theorem flat_combine_of_leaves (nonempty : es ≠ []) : Flat op (combine op es) := by
  rcases combine_cases op es with ⟨none, -⟩ | ⟨x, one, result⟩ | ⟨-, result⟩
  · exact absurd none (survivors_ne_nil (canonical_of_leaves leaves) nonempty)
  · obtain ⟨a, rfl⟩ := leaves_survivors leaves x (one ▸ List.mem_singleton_self x)
    exact result ▸ .assignment a
  · exact result ▸ .operation (leaves_survivors leaves)

/-- Assignments are combined to one just if they are all the same. -/
theorem combine_eq_assignment_iff (nonempty : es ≠ []) :
    (∃ a, combine op es = .assignment a) ↔ ∃ a, ∀ e ∈ es, e = .assignment a := by
  have canonical := canonical_of_leaves leaves
  have whole : es.flatMap (operandsFor op) = es :=
    flatMap_operandsFor_of_leaves leaves
  rcases combine_cases op es with ⟨none, -⟩ | ⟨x, one, result⟩ | ⟨two, result⟩
  · exact absurd none (survivors_ne_nil canonical nonempty)
  · obtain ⟨a, rfl⟩ := leaves_survivors leaves x (one ▸ List.mem_singleton_self x)
    refine iff_of_true ⟨a, result⟩ ⟨a, fun e he => ?_⟩
    obtain ⟨b, rfl⟩ := leaves e he
    have kept : .assignment b ∈ survivors op es := mem_survivors_of_assignment canonical (whole.symm ▸ he)
    exact List.mem_singleton.mp (one ▸ kept)
  · refine iff_of_false (by simp [result]) ?_
    rintro ⟨a, all⟩
    obtain ⟨x, y, rest, some⟩ := (canonicalNode_survivors canonical two).exists_operands
    have same (z : Expression) (hz : z ∈ survivors op es) : z = .assignment a :=
      all z (whole ▸ mem_flatMap_of_mem_survivors hz)
    have distinct : (survivors op es).Pairwise fun x y => repeats y x = false := distinct_survivors
    rw [some] at distinct same
    have unlike := List.rel_of_pairwise_cons distinct (.head rest)
    rw [same x (.head _), same y (.tail _ (.head _)), repeats_self (by simp)] at unlike
    cases unlike

end Leaves

/-- Where nothing is merged in, the combination is flat just if all its operands are assignments. -/
theorem flat_combine_iff (some : survivors op es ≠ []) (alone : ∀ e ∈ es, operandsFor op e = [e]) :
    Flat op (combine op es) ↔ ∀ e ∈ es, ∃ a, e = .assignment a := by
  have whole : es.flatMap (operandsFor op) = es := flatMap_operandsFor_of_alone alone
  constructor
  · intro flat e he
    have leaf (x : Expression) (hx : x ∈ survivors op es) : ∃ a, x = .assignment a := by
      rcases combine_cases op es with ⟨none, -⟩ | ⟨y, one, result⟩ | ⟨-, result⟩
      · exact absurd none some
      · obtain rfl : x = y := List.mem_singleton.mp (one ▸ hx)
        rw [result] at flat
        cases flat with
        | assignment a => exact ⟨a, rfl⟩
        | operation leaves =>
            have merged := alone _ (whole ▸ mem_flatMap_of_mem_survivors hx)
            simp only [operandsFor, if_true] at merged
            rw [merged] at leaves
            exact leaves _ (.head _)
      · rw [result] at flat
        cases flat with
        | operation leaves => exact leaves x hx
    obtain ⟨x, hx, rfl | repeated⟩ := exists_mem_survivors (whole.symm ▸ he)
    · exact leaf e hx
    · obtain ⟨a, rfl⟩ := leaf x hx
      exact eq_assignment_of_repeats repeated
  · intro leaves
    refine flat_combine_of_leaves leaves ?_
    rintro rfl
    exact some (by simp [survivors_eq, Selection.sorted])

end Expression

namespace Reading

open Expression

variable {op o : Operator} {t p : Text} {e x : Expression} {maxDepth levels depth : Nat}

/-- A bare text is not a group. -/
theorem not_group_of_bare {inner : Text} (bare : Bare p) :
    group? (Token.scan (trim p)) ≠ some inner := by
  intro grouped
  have opening : '(' ∈ trim p := by
    rw [eq_of_group? grouped]
    exact .head _
  exact (bare '(' ((trim_inside p).subset opening)).1 rfl

theorem exists_levels_of_readAt (read : (readAt maxDepth levels depth t).result = .ok e) :
    ∃ fewer, levels = fewer + 1 := by
  cases levels with
  | zero => cases read
  | succ fewer => exact ⟨fewer, rfl⟩

theorem plan_ne_fault_of_readAt (read : (readAt maxDepth levels depth t).result = .ok e)
    (fault : Fault) : Plan.of t ≠ .settled (.error fault) := by
  intro plan
  obtain ⟨fewer, rfl⟩ := exists_levels_of_readAt read
  rw [readAt_settled plan] at read
  cases read

/-- A text in which one operator is found is read as that operator over what its fragments are read as. -/
theorem exists_fragments_of_readAt (read : (readAt maxDepth levels depth t).result = .ok e)
    (found : .mark (.operator op) ∈ Token.scan (trim t))
    (only : ∀ o, o ≠ op → .mark (.operator o) ∉ Token.scan (trim t)) :
    ∃ (fewer : Nat) (meaning : Text → Expression), levels = fewer + 1 ∧
      (∀ p ∈ Plan.fragments op (trim t), ¬ Blank p ∧
        (readAt maxDepth fewer (depth + 1) p).result = .ok (meaning p)) ∧
      e = combine op ((Plan.fragments op (trim t)).eraseDups.map meaning) := by
  obtain ⟨fewer, rfl⟩ := exists_levels_of_readAt read
  have flat : Plan.of t = Plan.flat op (trim t) := by
    rcases Plan.of_cases t with ⟨blank, -⟩ | ⟨fault, plan, -⟩ | ⟨-, -, -, plans⟩
    · simp [trim_blank blank, Token.scan_nil] at found
    · exact absurd plan (plan_ne_fault_of_readAt read fault)
    · rcases plans with ⟨neither, -⟩ | ⟨o, here, -, plan⟩ | ⟨both, -⟩
      · exact absurd found (neither op)
      · rwa [Token.eq_of_only only here] at plan
      · cases op with
        | and => exact absurd (both .or) (only .or nofun)
        | or => exact absurd (both .and) (only .and nofun)
  rcases Plan.flat_cases op (trim t) with ⟨fault, plan, -⟩ | ⟨filled, remark, plan⟩
  · exact absurd (flat.trans plan) (plan_ne_fault_of_readAt read fault)
  · obtain ⟨meaning, each, rfl⟩ := exists_meaning_of_split (flat.trans plan) read
    exact ⟨fewer, meaning, rfl, fun p hp => ⟨filled p hp, each p (List.mem_eraseDups.mpr hp)⟩, rfl⟩

/-- A bare text without operators is read as the assignment that it is. -/
theorem plan_of_noOperator (read : (readAt maxDepth levels depth p).result = .ok x)
    (filled : ¬ Blank p) (bare : Bare p) (none : ∀ o, .mark (.operator o) ∉ Token.scan (trim p)) :
    ∃ a, x = .assignment a ∧ Plan.of p = .settled (.ok (.assignment a)) := by
  obtain ⟨fewer, rfl⟩ := exists_levels_of_readAt read
  have single : Plan.of p = Plan.single (trim p) (Token.scan (trim p)) := by
    rcases Plan.of_cases p with ⟨blank, -⟩ | ⟨fault, plan, -⟩ | ⟨-, -, -, plans⟩
    · exact absurd blank filled
    · exact absurd plan (plan_ne_fault_of_readAt read fault)
    · rcases plans with ⟨-, plan⟩ | ⟨o, found, -⟩ | ⟨both, -⟩
      · exact plan
      · exact absurd found (none o)
      · exact absurd (both .and) (none .and)
  rcases Plan.single_cases (trim p) with ⟨fault, plan, -⟩ | ⟨-, inner, grouped, -⟩ |
    ⟨-, -, a, -, -, -, plan⟩
  · exact absurd (single.trans plan) (plan_ne_fault_of_readAt read fault)
  · exact absurd grouped (not_group_of_bare bare)
  · rw [readAt_settled (single.trans plan)] at read
    exact ⟨a, (Except.ok.inj read).symm, single.trans plan⟩

/-- What a fragment of a text with this operator is read as: the assignment that it is, or what it is when
it is cut at the other operator. -/
inductive Fragment (op : Operator) (p : Text) : Expression → Prop where
  | single {a : Assignment} (plan : Plan.of p = .settled (.ok (.assignment a)))
      (uncut : ∀ o : Operator, ¬ o.separator <:+: trim p) : Fragment op p (.assignment a)
  | again {o : Operator} {meaning : Text → Expression} (other : o ≠ op)
      (inside : o.separator <:+: trim p)
      (each : ∀ q ∈ Plan.fragments o (trim p),
        ∃ a, Plan.of q = .settled (.ok (.assignment a)) ∧ meaning q = .assignment a) :
      Fragment op p (combine o ((Plan.fragments o (trim p)).map meaning))

/-- Nothing but the other operator can be left in a fragment, and nothing is left in its fragments. -/
theorem not_separator_inside_fragment_again (bare : Bare p) (uncut : ¬ op.separator <:+: p)
    (other : o ≠ op) {q : Text} (hq : q ∈ Plan.fragments o (trim p)) (r : Operator) :
    ¬ r.separator <:+: q := by
  rcases Operator.eq_or_eq other r with rfl | rfl
  · intro inside
    have part := infix_intercalate o.separator hq
    rw [text_of_fragments, stripped_of_bare (bare.of_inside (trim_inside p))] at part
    exact uncut ((inside.trans part).trans (trim_inside p))
  · exact not_separator_inside_fragment hq

theorem fragment_of_readAt (read : (readAt maxDepth levels depth p).result = .ok x)
    (filled : ¬ Blank p) (bare : Bare p) (uncut : ¬ op.separator <:+: p) : Fragment op p x := by
  have absent : .mark (.operator op) ∉ Token.scan (trim p) := by
    intro found
    have inside : op.separator <:+: trim p := Token.infix_of_mark_mem_scan found
    exact uncut (inside.trans (trim_inside p))
  rcases Plan.operator_cases fun o => .mark (.operator o) ∈ Token.scan (trim p) with
    none | ⟨o, found, only⟩ | both
  · obtain ⟨a, rfl, plan⟩ := plan_of_noOperator read filled bare none
    refine .single plan fun o inside => ?_
    obtain ⟨r, found⟩ := Token.exists_operator_mem_scan inside
    exact none r found
  · have other : o ≠ op := fun same => absent (same ▸ found)
    obtain ⟨fewer, meaning, -, each, rfl⟩ := exists_fragments_of_readAt read found only
    have leaf (q : Text) (hq : q ∈ Plan.fragments o (trim p)) :
        ∃ a, meaning q = .assignment a ∧ Plan.of q = .settled (.ok (.assignment a)) := by
      refine plan_of_noOperator (each q hq).2 (each q hq).1 (bare_of_mem_fragments hq) fun r found => ?_
      have inside : r.separator <:+: trim q := Token.infix_of_mark_mem_scan found
      exact not_separator_inside_fragment_again bare uncut other hq r (inside.trans (trim_inside q))
    rw [combine_map_eraseDups fun q hq =>
      blank_notMem_operandsFor_of_leaf ((leaf q hq).imp fun _ h => h.1)]
    refine .again other (Token.infix_of_mark_mem_scan found) fun q hq => ?_
    obtain ⟨a, same, plan⟩ := leaf q hq
    exact ⟨a, plan, same⟩
  · exact absurd (both op) absent

section Fragment

theorem map_fragments_ne_nil (op : Operator) (t : Text) (meaning : Text → Expression) :
    (Plan.fragments op t).map meaning ≠ [] := by
  simpa [Plan.fragments_eq] using cut_ne_nil op.separator (stripped t)

theorem leaves_of_each {meaning : Text → Expression} (each : ∀ q ∈ Plan.fragments o (trim p),
    ∃ a, Plan.of q = .settled (.ok (.assignment a)) ∧ meaning q = .assignment a) :
    ∀ e ∈ (Plan.fragments o (trim p)).map meaning, ∃ a, e = .assignment a :=
  List.forall_mem_map.mpr fun q hq => (each q hq).imp fun _ h => h.2

theorem Fragment.canonical (h : Fragment op p x) : x.Canonical := by
  cases h with
  | single => exact .assignment _
  | again _ _ each => exact Canonical.combine (canonical_of_leaves (leaves_of_each each))

/-- It is not merged into an operation with the operator of the text. -/
theorem Fragment.exists_flat (h : Fragment op p x) : ∃ o, o ≠ op ∧ Flat o x := by
  cases h with
  | single =>
      cases op with
      | and => exact ⟨.or, nofun, .assignment _⟩
      | or => exact ⟨.and, nofun, .assignment _⟩
  | @again o meaning other inside each =>
      exact ⟨o, other, flat_combine_of_leaves (leaves_of_each each) (map_fragments_ne_nil _ _ _)⟩

theorem Fragment.alone (h : Fragment op p x) : operandsFor op x = [x] := by
  obtain ⟨o, other, flat⟩ := h.exists_flat
  cases flat with
  | assignment => rfl
  | operation => simp [operandsFor, other]

theorem Fragment.assignment_iff (h : Fragment op p x) (uncut : ¬ op.separator <:+: p) :
    (∃ a, x = .assignment a) ↔ ∀ o : Operator, o.separator <:+: trim p →
      ∃ a, ∀ q ∈ Plan.fragments o (trim p), Plan.of q = .settled (.ok (.assignment a)) := by
  cases h with
  | @single a plan none => exact iff_of_true ⟨a, rfl⟩ fun o inside => absurd inside (none o)
  | @again o meaning other inside each =>
      rw [combine_eq_assignment_iff (leaves_of_each each) (map_fragments_ne_nil _ _ _)]
      constructor
      · rintro ⟨a, all⟩ r found
        have same : r = o := by
          rcases Operator.eq_or_eq other r with rfl | same
          · exact absurd (found.trans (trim_inside p)) uncut
          · exact same
        refine ⟨a, fun q hq => ?_⟩
        subst same
        obtain ⟨b, plan, leaf⟩ := each q hq
        rw [plan, ← leaf, all _ (List.mem_map_of_mem hq)]
      · intro repeated
        obtain ⟨a, all⟩ := repeated o inside
        refine ⟨a, List.forall_mem_map.mpr fun q hq => ?_⟩
        obtain ⟨b, plan, leaf⟩ := each q hq
        rw [all q hq] at plan
        rw [leaf, ← Except.ok.inj (Plan.settled.inj plan)]

end Fragment

/-- A text with one operator is read as one assignment or as assignments under that operator, just if no
fragment of it has the other operator in it, or one that does repeats a single assignment. The fragments
are what is between the operators when the parentheses are gone. -/
theorem flat_iff_of_read {limits : Limits} (h : (read limits t).result = .ok e)
    (found : .mark (.operator op) ∈ Token.scan (trim t))
    (only : ∀ o, o ≠ op → .mark (.operator o) ∉ Token.scan (trim t)) :
    Flat op e ↔ ∀ p ∈ Plan.fragments op (trim t), ∀ o : Operator, o.separator <:+: trim p →
      ∃ a, ∀ q ∈ Plan.fragments o (trim p), Plan.of q = .settled (.ok (.assignment a)) := by
  obtain ⟨fewer, meaning, -, each, rfl⟩ := exists_fragments_of_readAt (readAt_of_read h) found only
  have fragment (p : Text) (hp : p ∈ Plan.fragments op (trim t)) : Fragment op p (meaning p) :=
    fragment_of_readAt (each p hp).2 (each p hp).1 (bare_of_mem_fragments hp)
      (not_separator_inside_fragment hp)
  have parts (p : Text) (hp : p ∈ (Plan.fragments op (trim t)).eraseDups) :
      Fragment op p (meaning p) := fragment p (List.mem_eraseDups.mp hp)
  have some : (Plan.fragments op (trim t)).eraseDups.map meaning ≠ [] := by
    obtain ⟨p, hp⟩ := List.exists_mem_of_ne_nil _ (cut_ne_nil op.separator (stripped (trim t)))
    exact List.ne_nil_of_mem (List.mem_map_of_mem (List.mem_eraseDups.mpr hp))
  rw [flat_combine_iff
    (survivors_ne_nil (List.forall_mem_map.mpr fun p hp => (parts p hp).canonical) some)
    (List.forall_mem_map.mpr fun p hp => (parts p hp).alone), List.forall_mem_map]
  simp only [List.mem_eraseDups]
  refine forall₂_congr fun p hp => ?_
  exact (fragment p hp).assignment_iff (not_separator_inside_fragment hp)

/-- A parenthesis within the word of the other operator does no harm when that operator stands between
repeats. -/
theorem flat_iff_of_read_repeated :
    let a : Expression := .assignment ⟨['A'], ['1'], by decide, by decide⟩
    let b : Expression := .assignment ⟨['B'], ['2'], by decide, by decide⟩
    let t : Text := "A = 1 AND (B = 2 O()R B = 2)".toList
    (read {} t).result = .ok (.operation .and [a, b]) ∧
      .mark (.operator .and) ∈ Token.scan (trim t) ∧
      (∀ o : Operator, o ≠ .and → .mark (.operator o) ∉ Token.scan (trim t)) ∧
      Flat .and (.operation .and [a, b]) := by
  intro a b t
  have outer : combine .and [a, b] = .operation .and [a, b] :=
    combine_of_canonicalNode ⟨by decide, by simp [a, b], by decide, by decide⟩
  have one : combine .or [b] = b := combine_singleton .or (.assignment _)
  have read : (read {} t).result = .ok (.operation .and [a, b]) := by
    have parts : (read {} t).result = .ok (combine .and [a, combine .or [b]]) := rfl
    rw [parts, one, outer]
  have found : .mark (.operator .and) ∈ Token.scan (trim t) := by decide
  have only : ∀ o : Operator, o ≠ .and → .mark (.operator o) ∉ Token.scan (trim t) := by decide
  refine ⟨read, found, only, (flat_iff_of_read read found only).mpr ?_⟩
  have fragments : Plan.fragments .and (trim t) = ["A = 1".toList, "B = 2 OR B = 2".toList] := rfl
  have repeated : Plan.fragments .or (trim "B = 2 OR B = 2".toList) =
      ["B = 2".toList, "B = 2".toList] := rfl
  have uncut : ∀ o : Operator, occurs o.separator (trim "A = 1".toList) = false := by decide
  have noAnd : occurs Operator.and.separator (trim "B = 2 OR B = 2".toList) = false := by decide
  rw [fragments]
  intro p hp o inside
  simp only [List.mem_cons, List.not_mem_nil, or_false] at hp
  rcases hp with rfl | rfl
  · exact absurd inside (occurs_eq_false_iff.mp (uncut o))
  · cases o with
    | and => exact absurd inside (occurs_eq_false_iff.mp noAnd)
    | or =>
        refine ⟨⟨['B'], ['2'], by decide, by decide⟩, fun q hq => ?_⟩
        simp only [repeated, List.mem_cons, List.not_mem_nil, or_false, or_self] at hq
        subst hq
        rfl

/-- The only operator of the text is AND, and what is behind it would be one assignment if it stood alone.
When its parentheses are dropped an OR appears, and the two assignments beside it are grouped. -/
theorem not_flat_of_read :
    let a : Expression := .assignment ⟨['A'], ['1'], by decide, by decide⟩
    let b : Expression := .assignment ⟨['B'], ['2'], by decide, by decide⟩
    let c : Expression := .assignment ⟨['C'], ['3'], by decide, by decide⟩
    let alone : Expression := .assignment ⟨['B'], "2 O()R C (=) 3".toList, by decide, by decide⟩
    let t : Text := "A = 1 AND B = 2 O()R C (=) 3".toList
    let e : Expression := .operation .and [a, .operation .or [b, c]]
    (read {} "B = 2 O()R C (=) 3".toList).result = .ok alone ∧
      (read {} t).result = .ok e ∧ .mark (.operator .and) ∈ Token.scan (trim t) ∧
      (∀ o : Operator, o ≠ .and → .mark (.operator o) ∉ Token.scan (trim t)) ∧ ¬ Flat .and e := by
  intro a b c alone t e
  have inner : combine .or [b, c] = .operation .or [b, c] :=
    combine_of_canonicalNode ⟨by decide, by simp [b, c], by decide, by decide⟩
  have outer : combine .and [a, .operation .or [b, c]] = e :=
    combine_of_canonicalNode ⟨by decide, by simp [a], by decide, by decide⟩
  have read : (read {} t).result = .ok (combine .and [a, combine .or [b, c]]) := rfl
  refine ⟨rfl, by rw [read, inner, outer], by decide, by decide, ?_⟩
  intro flat
  have nested : Flat .and (.operation .and [a, .operation .or [b, c]]) := flat
  cases nested with
  | operation leaves =>
      obtain ⟨d, leaf⟩ := leaves (.operation .or [b, c]) (by simp)
      cases leaf

end Reading

end ChoiceLogic
