import ChoiceLogic.Proofs.Reading.Faithful
import ChoiceLogic.Proofs.Reading.Strand

/-! # Burdens

What can make a text change its meaning when it is read again is parentheses in a leaf, which may be
dropped, and a leaf that ends in the word of an operator, which may be cut off. The burden of a leaf
counts both, and parentheses so much that no words outweigh them. Reading never adds to it.
-/

namespace ChoiceLogic

namespace Markup

variable {op : Operator} {c t u kept : Text} {rate : Nat}

def parentheses (t : Text) : Nat :=
  t.countP fun c => c = '(' || c = ')'

theorem parentheses_append (t u : Text) : parentheses (t ++ u) = parentheses t + parentheses u :=
  List.countP_append

theorem parentheses_eq_zero_iff : parentheses t = 0 ↔ Bare t := by
  simp [parentheses, Bare]

theorem parentheses_enclosed (t : Text) : parentheses ('(' :: (t ++ [')'])) = parentheses t + 2 := by
  have around : '(' :: (t ++ [')']) = ['('] ++ t ++ [')'] := rfl
  have opening : parentheses ['('] = 1 := rfl
  have closing : parentheses [')'] = 1 := rfl
  rw [around, parentheses_append, parentheses_append, opening, closing]
  omega

/-- The parentheses of a text at a rate, and one for the word of an operator at its end. -/
def burden (rate : Nat) (t : Text) : Nat :=
  rate * parentheses t + if EndsInOperator t then 1 else 0

theorem burden_of_endsInOperator (h : EndsInOperator t) : burden rate t = rate * parentheses t + 1 := by
  rw [burden, if_pos h]

theorem burden_of_not_endsInOperator (h : ¬ EndsInOperator t) : burden rate t = rate * parentheses t := by
  rw [burden, if_neg h, Nat.add_zero]

theorem burden_le_of_parentheses_lt (pos : 0 < rate) (h : parentheses u < parentheses t) :
    burden rate u ≤ rate * parentheses t := by
  have step := Nat.mul_le_mul_left rate h
  rw [Nat.mul_succ] at step
  have word : burden rate u ≤ rate * parentheses u + 1 := by
    unfold burden
    split <;> omega
  omega

theorem mul_parentheses_le_burden (rate : Nat) (t : Text) : rate * parentheses t ≤ burden rate t :=
  Nat.le_add_right _ _

theorem Carry.parentheses_append (hc : Carry c) (t : Text) : parentheses (c ++ t) = parentheses t := by
  rw [Markup.parentheses_append, parentheses_eq_zero_iff.mpr hc.bare, Nat.zero_add]

end Markup

namespace Reading

open Markup Selection Text Expression

variable {op o : Operator} {c t u z kept : Text} {e : Expression} {rate : Nat}

/-- What is read without operators is one assignment, perhaps inside parentheses. -/
theorem Faithful.of_noOperator (h : Faithful t e) (none : ∀ op : Operator, ¬ op.separator <:+: t) :
    ∃ a, e = .assignment a ∧ (a.render = t ∨ parentheses a.render < parentheses t) := by
  have unfound (op : Operator) : .mark (.operator op) ∉ Token.scan t := fun found =>
    none op (Token.infix_of_mark_mem_scan found)
  induction h with
  | @leaf a => exact ⟨a, rfl, .inl rfl⟩
  | @group t inner e grouped closed read ih =>
      have whole := eq_of_group? grouped
      have inside : inner <:+: t := ⟨['('], [')'], whole.symm⟩
      have none' (op : Operator) : ¬ op.separator <:+: inner := fun h => none op (h.trans inside)
      obtain ⟨a, rfl, fewer⟩ := ih none' fun op found => none' op (Token.infix_of_mark_mem_scan found)
      refine ⟨a, rfl, .inr ?_⟩
      rw [whole, parentheses_enclosed]
      rcases fewer with rfl | fewer
      · omega
      · omega
  | @flat t op _ _ found => exact absurd found (unfound op)
  | @layered t _ _ op _ _ both => exact absurd (both op) (unfound op)

theorem name_mem_fragments (o op : Operator) (z : Text) :
    o.name ∈ Plan.fragments op (o.name ++ op.separator ++ z) := by
  have noBlank := o.isWord_name.noBlank
  have bare : stripped (o.name ++ op.separator ++ z) = o.name ++ spaced op.name ++ stripped z := by
    rw [stripped_append, stripped_append, stripped_of_bare (bare_name o),
      stripped_of_bare (bare_separator op), op.separator_eq_spaced]
  rw [Plan.fragments_eq, bare, op.separator_eq_spaced,
    cut_append_spaced op.isWord_name (not_endsIn_of_noBlank noBlank),
    cut_of_not_inside (not_spaced_infix_of_noBlank noBlank)]
  exact .head _

/-- The word of an operator alone in front of an operator cannot be read. -/
theorem Faithful.ne_carried (h : Faithful t e) : t ≠ o.name ++ op.separator ++ z := by
  intro whole
  have found : .mark (.operator op) ∈ Token.scan t := whole ▸ operator_mem_scan_name_append o op z
  cases h with
  | leaf legible => exact legible.mark_notMem op found
  | group grouped =>
      rw [eq_of_group? grouped] at whole
      cases o <;> simp [Operator.name] at whole
  | @flat _ q _ _ _ only each =>
      obtain rfl : op = q := Token.eq_of_only only found
      exact not_sign_inside_name o (each o.name (whole ▸ name_mem_fragments o op z)).contains_sign
  | @layered _ first _ _ _ _ _ segs _ each =>
      rw [whole, segments_name_append] at segs
      obtain rfl : o.name = first := congrArg Prod.fst segs
      exact not_sign_inside_name o (each o.name (.head _)).contains_sign

theorem Faithful.noOperator_of_carry (h : Faithful (c ++ u) e) (hc : Carry c)
    (none : ∀ op : Operator, ¬ op.separator <:+: u) (op : Operator) : ¬ op.separator <:+: c ++ u :=
  hc.not_infix (none op) fun _ _ => h.ne_carried

/-- The burden of all leaves. -/
def totalBurden (rate : Nat) (e : Expression) : Nat :=
  load (fun a => burden rate a.render) e

theorem totalBurden_assignment (rate : Nat) (a : Assignment) :
    totalBurden rate (.assignment a) = burden rate a.render :=
  load_assignment _ a

/-- A plain text with what is carried over to it is read with no more than its burden. -/
theorem Faithful.totalBurden_le (h : Faithful (c ++ t) e) (hc : Carry c) (plain : Plain t)
    (pos : 0 < rate) : totalBurden rate e ≤ burden rate t := by
  obtain ⟨a, rfl, same | fewer⟩ := h.of_noOperator (h.noOperator_of_carry hc plain.noOperator)
  · rw [totalBurden_assignment, same]
    simp only [burden, hc.parentheses_append, plain.endsInOperator_append_iff]
    exact Nat.le_refl _
  · rw [hc.parentheses_append] at fewer
    rw [totalBurden_assignment]
    exact Nat.le_trans (burden_le_of_parentheses_lt pos fewer) (mul_parentheses_le_burden rate t)

/-- Cut short, it is read with less. -/
theorem Faithful.totalBurden_lt (h : Faithful (c ++ kept) e) (hc : Carry c) (plain : Plain t)
    (whole : t = kept ++ ' ' :: op.name) (pos : 0 < rate) : totalBurden rate e < burden rate t := by
  have ends : EndsInOperator t := ⟨op, kept, whole.symm⟩
  have word : Bare (' ' :: op.name) := by cases op <;> decide
  have same : parentheses t = parentheses kept := by
    rw [whole, parentheses_append, parentheses_eq_zero_iff.mpr word, Nat.add_zero]
  obtain ⟨a, rfl, kept_eq | fewer⟩ := h.of_noOperator
    (h.noOperator_of_carry hc (plain.kept_noOperator whole))
  · rw [totalBurden_assignment, kept_eq,
      burden_of_not_endsInOperator (plain.not_endsInOperator_kept whole c),
      burden_of_endsInOperator ends, hc.parentheses_append, same]
    omega
  · rw [hc.parentheses_append, ← same] at fewer
    have less := burden_le_of_parentheses_lt pos fewer
    rw [totalBurden_assignment, burden_of_endsInOperator ends]
    omega

end Reading

end ChoiceLogic
