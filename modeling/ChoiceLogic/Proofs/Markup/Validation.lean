import ChoiceLogic.Proofs.Markup.Balance

/-! # Telling imbalance and groups

The tokens of a text say just what its characters do about its parentheses: whether they are paired, at
which byte the first one closes what was not opened, and whether one pair encloses the whole text, with
a text inside whose parentheses are paired again.
-/

namespace ChoiceLogic.Markup

/-- As many parentheses open as close, and no beginning of the text closes more than it opens. -/
def Paired (t : Text) : Prop :=
  t.count '(' = t.count ')' ∧ ∀ u, u <+: t → u.count ')' ≤ u.count '('

section Validation

variable {level byte early : Nat} {t inner : Text} {ts : List Token}

theorem paired_iff_balanced : Paired t ↔ Balanced t :=
  balanced_iff_count.symm

theorem imbalance?_eq_none_iff_paired : imbalance? (Token.scan t) = none ↔ Paired t :=
  imbalance?_scan_eq_none_iff.trans balanced_iff_count

/-- Parentheses can be counted by tokens or by characters. -/
theorem count_mark (bare : RunsBare ts) :
    ts.count (.mark .opening) = (ts.flatMap Token.text).count '(' ∧
      ts.count (.mark .closing) = (ts.flatMap Token.text).count ')' := by
  induction ts with
  | nil => exact ⟨rfl, rfl⟩
  | cons t ts ih =>
      obtain ⟨opening, closing⟩ := ih bare.tail
      have notIn {u : Text} (h : Bare u) : u.count '(' = 0 ∧ u.count ')' = 0 :=
        ⟨List.count_eq_zero.mpr fun mem => (h _ mem).1 rfl,
          List.count_eq_zero.mpr fun mem => (h _ mem).2 rfl⟩
      rw [List.flatMap_cons, List.count_append, List.count_append, List.count_cons, List.count_cons,
        opening, closing]
      cases t with
      | run r =>
          obtain ⟨none, none'⟩ := notIn (bare.head r rfl)
          simp [Token.text, none, none']
      | mark m =>
          cases m with
          | operator op =>
              obtain ⟨none, none'⟩ := notIn (bare_separator op)
              simp [Token.text, Mark.text, none, none']
          | opening => simp [Token.text, Mark.text, Nat.add_comm]
          | closing => simp [Token.text, Mark.text, Nat.add_comm]

/-- What stands before the first closing parenthesis without a partner is balanced. -/
theorem exists_of_closingFirst? (bare : RunsBare ts) (h : closingFirst? level byte ts = some early) :
    ∃ u v, ts.flatMap Token.text = u ++ ')' :: v ∧ byte + Text.byteSize u = early ∧
      levelThrough? level u = some 0 := by
  induction ts generalizing level byte with
  | nil => cases h
  | cons t ts ih =>
      rw [closingFirst?] at h
      by_cases here : t = .mark .closing ∧ level = 0
      · rw [if_pos here] at h
        obtain ⟨rfl, rfl⟩ := here
        exact ⟨[], ts.flatMap Token.text, rfl, Option.some.inj h, rfl⟩
      · rw [if_neg here] at h
        obtain ⟨u, v, text, place, through⟩ := ih bare.tail h
        refine ⟨t.text ++ u, v, ?_, ?_, ?_⟩
        · rw [List.flatMap_cons, text, List.append_assoc]
        · rw [Text.byteSize_append, ← Nat.add_assoc, place]
        · rw [levelThrough?_append, levelThrough?_token bare.head, if_neg here]
          exact through

/-- Where the totals are equal, only the order of the parentheses can be at fault. -/
theorem imbalance?_of_count_eq (totals : t.count '(' = t.count ')') :
    imbalance? (Token.scan t) = (closingFirst? 0 0 (Token.scan t)).map .closingFirst := by
  obtain ⟨opening, closing⟩ := count_mark (runsBare_scan t)
  rw [Token.flatMap_text_scan] at opening closing
  simp only [imbalance?, opening, closing, totals, Nat.lt_irrefl, if_false]

/-- The first closing parenthesis at which the beginning of the text closes more than it opens. -/
theorem exists_closingFirst (totals : t.count '(' = t.count ')') (unpaired : ¬ Paired t) :
    ∃ u v, t = u ++ ')' :: v ∧ imbalance? (Token.scan t) = some (.closingFirst (Text.byteSize u)) ∧
      Balanced u := by
  have order := imbalance?_of_count_eq totals
  cases found : closingFirst? 0 0 (Token.scan t) with
  | none =>
      rw [found] at order
      exact absurd (imbalance?_eq_none_iff_paired.mp order) unpaired
  | some early =>
      obtain ⟨u, v, text, rfl, balanced⟩ := exists_of_closingFirst? (runsBare_scan t) found
      rw [Token.flatMap_text_scan] at text
      rw [found, Nat.zero_add] at order
      exact ⟨u, v, text, order, balanced⟩

end Validation

/-- A text passes just if its parentheses are paired. Where there are as many of both kinds and they
are not paired, the byte that is told is that of the first closing one up to which the text closes more
than it opens. And a text that passes is a group just if it consists of a paired text in parentheses.
That text is what is inside, and it passes too. -/
theorem imbalance?_group? (t : Text) :
    (imbalance? (Token.scan t) = none ↔ Paired t) ∧
    (t.count '(' = t.count ')' → ¬ Paired t →
      ∃ u v, t = u ++ ')' :: v ∧ imbalance? (Token.scan t) = some (.closingFirst (Text.byteSize u)) ∧
        (u ++ [')']).count '(' < (u ++ [')']).count ')' ∧ ∀ w, w <+: u → w.count ')' ≤ w.count '(') ∧
    (imbalance? (Token.scan t) = none → ∀ inner,
      (group? (Token.scan t) = some inner ↔ t = '(' :: (inner ++ [')']) ∧ Paired inner) ∧
      (group? (Token.scan t) = some inner → imbalance? (Token.scan inner) = none)) := by
  refine ⟨imbalance?_eq_none_iff_paired, fun totals unpaired => ?_,
    fun _ inner => ⟨?_, fun grouped => ?_⟩⟩
  · obtain ⟨u, v, text, told, balanced⟩ := exists_closingFirst totals unpaired
    obtain ⟨equal, before⟩ := balanced_iff_count.mp balanced
    refine ⟨u, v, text, told, ?_, before⟩
    rw [List.count_append, List.count_append, equal]
    exact Nat.lt_succ_self _
  · rw [paired_iff_balanced]
    constructor
    · exact of_group?
    · rintro ⟨rfl, balanced⟩
      exact group?_scan_enclosed balanced
  · exact imbalance?_scan_eq_none_iff.mpr (of_group? grouped).2

/-- The second closing parenthesis of a text comes too early, behind a character of two bytes. And of two
texts that pass, only the one in which the outer pair encloses the others is a group. -/
theorem imbalance?_group?_nested :
    let t : Text := "é()) = (".toList
    let inner : Text := "(A) OR (B)".toList
    imbalance? (Token.scan t) = some (.closingFirst 4) ∧
      (∃ u v, t = u ++ ')' :: v ∧ imbalance? (Token.scan t) = some (.closingFirst (Text.byteSize u)) ∧
        (u ++ [')']).count '(' < (u ++ [')']).count ')') ∧
      group? (Token.scan inner) = none ∧
      group? (Token.scan ('(' :: (inner ++ [')']))) = some inner ∧
      imbalance? (Token.scan inner) = none := by
  intro t inner
  obtain ⟨passes, early, -⟩ := imbalance?_group? t
  have unpaired : ¬ Paired t := fun paired => absurd (passes.mpr paired) (by decide)
  obtain ⟨u, v, text, told, surplus, -⟩ := early (by decide) unpaired
  obtain ⟨-, -, groups⟩ := imbalance?_group? ('(' :: (inner ++ [')']))
  have grouped : group? (Token.scan ('(' :: (inner ++ [')']))) = some inner := by decide
  exact ⟨by decide, ⟨u, v, text, told, surplus⟩, by decide, grouped, (groups (by decide) inner).2 grouped⟩

end ChoiceLogic.Markup
