import ChoiceLogic.Markup.Token
import ChoiceLogic.Proofs.Text.Spaced

/-! # Scanning a text in parts

A mark that stands between two texts is found there unless it is an operator and the text before it
ends in the word of an operator, whose space it would take. Parentheses are always found.
-/

namespace ChoiceLogic.Markup

open Text (spaced EndsIn)

/-- The text before an operator would take the operator's first space. -/
def EndsInOperator (t : Text) : Prop :=
  ∃ op : Operator, EndsIn op.name t

instance (t : Text) : Decidable (EndsInOperator t) :=
  decidable_of_iff (¬ ∀ op : Operator, ¬ EndsIn op.name t) (by simp [EndsInOperator])

namespace Mark

/-- Nothing before the mark takes a part of it. -/
def Clear (u : Text) : Mark → Prop
  | .operator _ => ¬ EndsInOperator u
  | .opening | .closing => True

theorem Clear.of_suffix {m : Mark} {u v : Text} (h : m.Clear u) (suffix : v <:+ u) : m.Clear v := by
  cases m with
  | operator op =>
      rintro ⟨o, ends⟩
      exact h ⟨o, ends.trans suffix⟩
  | opening | closing => exact trivial

theorem starting?_congr {s t : Text} (h : ∀ m : Mark, m.text <+: s ↔ m.text <+: t) :
    starting? s = starting? t := by
  unfold starting?
  congr 1
  funext m
  rw [Bool.eq_iff_iff, List.isPrefixOf_iff_prefix, List.isPrefixOf_iff_prefix, h m]

theorem starting?_text_append (m : Mark) (v : Text) : starting? (m.text ++ v) = some m := by
  cases m with
  | operator op => cases op <;> rfl
  | opening | closing => rfl

theorem not_prefix_of_starting?_eq_none {t : Text} (h : starting? t = none) (m : Mark) :
    ¬ m.text <+: t := by
  intro start
  have mem : m ∈ all := by
    cases m with
    | operator op => cases op <;> decide
    | opening | closing => decide
  have := List.find?_eq_none.mp h m mem
  exact this (List.isPrefixOf_iff_prefix.mpr start)

/-- What is before a mark decides what starts there. -/
theorem starting?_append {u : Text} (hu : u ≠ []) (m : Mark) (clear : m.Clear u) (v : Text) :
    starting? (u ++ (m.text ++ v)) = starting? u := by
  obtain ⟨d, u, rfl⟩ := List.exists_cons_of_ne_nil hu
  have single (c : Char) (x : Text) : [c] <+: d :: x ↔ [c] <+: d :: u := by
    simp [List.cons_prefix_cons]
  refine starting?_congr fun n => ?_
  cases n with
  | opening => exact single _ _
  | closing => exact single _ _
  | operator o =>
      change o.separator <+: _ ↔ o.separator <+: _
      rw [o.separator_eq_spaced]
      cases m with
      | operator op =>
          change _ <+: _ ++ (op.separator ++ v) ↔ _
          rw [op.separator_eq_spaced]
          exact Text.spaced_prefix_append_cons hu (o.isWord_name.not_mem_of_isBlank Text.isBlank_space)
            fun _ ends => clear ⟨o, ends⟩
      | opening => exact Text.spaced_prefix_append_cons hu (by cases o <;> decide) (by simp)
      | closing => exact Text.spaced_prefix_append_cons hu (by cases o <;> decide) (by simp)

end Mark

namespace Token

theorem scan_text_append (m : Mark) (v : Text) : scan (m.text ++ v) = .mark m :: scan v := by
  obtain ⟨c, rest, hm⟩ := List.exists_cons_of_ne_nil (List.ne_nil_of_length_pos m.text_length_pos)
  have start := Mark.starting?_text_append m v
  rw [hm, List.cons_append] at start ⊢
  rw [scan_cons, start]
  simp [hm]

theorem scan_cons_of_none {c : Char} {u : Text} (h : Mark.starting? (c :: u) = none) :
    scan (c :: u) = extend c (scan u) := by
  rw [scan_cons, h]

/-- Induction along the tokens of a text. -/
theorem scan_induction {motive : Text → Prop} (nil : motive [])
    (mark : ∀ (m : Mark) u, motive u → motive (m.text ++ u))
    (cons : ∀ c u, Mark.starting? (c :: u) = none → motive u → motive (c :: u)) (u : Text) :
    motive u := by
  induction n : u.length using Nat.strongRecOn generalizing u with
  | ind n ih =>
      subst n
      cases u with
      | nil => exact nil
      | cons c u =>
          cases h : Mark.starting? (c :: u) with
          | none => exact cons c u h (ih u.length (by simp) u rfl)
          | some m =>
              obtain ⟨rest, hrest⟩ := Mark.isPrefix_of_starting?_eq_some h
              rw [← hrest] at ih ⊢
              have pos := m.text_length_pos
              exact mark m rest (ih rest.length (by simp; omega) rest rfl)

theorem extend_append (c : Char) (ts us : List Token) (m : Mark) :
    extend c (ts ++ .mark m :: us) = extend c ts ++ .mark m :: us := by
  cases ts with
  | nil => rfl
  | cons t ts => cases t <;> rfl

/-- The tokens around a mark are the tokens of the texts around it. -/
theorem scan_append (m : Mark) {u : Text} (clear : m.Clear u) (v : Text) :
    scan (u ++ (m.text ++ v)) = scan u ++ .mark m :: scan v := by
  induction u using scan_induction with
  | nil => exact scan_text_append m v
  | mark n u ih =>
      rw [List.append_assoc, scan_text_append, scan_text_append, List.cons_append,
        ih (clear.of_suffix (List.suffix_append _ _))]
  | cons c u start ih =>
      have later : Mark.starting? (c :: (u ++ (m.text ++ v))) = none :=
        (Mark.starting?_append (List.cons_ne_nil c u) m clear v).trans start
      rw [List.cons_append, scan_cons_of_none later, ih (clear.of_suffix (List.suffix_cons c u)),
        extend_append, scan_cons_of_none start]

theorem scan_append_operator (op : Operator) {u : Text} (apart : ¬ EndsInOperator u) (v : Text) :
    scan (u ++ op.separator ++ v) = scan u ++ .mark (.operator op) :: scan v := by
  rw [List.append_assoc]
  exact scan_append (.operator op) apart v

/-- A pair of parentheses around a text. -/
theorem scan_enclosed (u : Text) :
    scan ('(' :: (u ++ [')'])) = .mark .opening :: (scan u ++ [.mark .closing]) := by
  have closing := scan_append .closing (u := u) trivial []
  have opening := scan_text_append .opening (u ++ [')'])
  simp only [Mark.text, List.append_nil, List.singleton_append, scan_nil] at closing opening
  rw [opening, closing]

theorem mark_mem_extend {m : Mark} {c : Char} {ts : List Token} :
    .mark m ∈ extend c ts ↔ .mark m ∈ ts := by
  cases ts with
  | nil => simp [extend]
  | cons t ts => cases t <;> simp [extend]

theorem infix_of_mark_mem_scan {m : Mark} {u : Text} (h : .mark m ∈ scan u) : m.text <:+: u := by
  obtain ⟨before, behind, tokens⟩ := List.append_of_mem h
  refine ⟨before.flatMap text, behind.flatMap text, ?_⟩
  have whole := flatMap_text_scan u
  rw [tokens, List.flatMap_append, List.flatMap_cons, ← List.append_assoc] at whole
  exact whole

/-- Where an operator occurs, one is found: that one, or another that takes a part of it. -/
theorem exists_operator_mem_scan {op : Operator} {u : Text} (occurs : op.separator <:+: u) :
    ∃ o, .mark (.operator o) ∈ scan u := by
  have past (c : Char) (x : Text) (hc : c ∉ op.separator) (h : op.separator <:+: c :: x) :
      op.separator <:+: x := by
    rw [op.separator_eq_spaced] at hc h ⊢
    have := Text.spaced_infix_append_cons_of_notMem (u := []) hc h
    simpa [spaced] using this
  induction u using scan_induction with
  | nil => simp [op.separator_eq] at occurs
  | mark m u ih =>
      rw [scan_text_append]
      cases m with
      | operator o => exact ⟨o, .head _⟩
      | opening =>
          obtain ⟨o, ho⟩ := ih (past '(' u (by cases op <;> decide) occurs)
          exact ⟨o, .tail _ ho⟩
      | closing =>
          obtain ⟨o, ho⟩ := ih (past ')' u (by cases op <;> decide) occurs)
          exact ⟨o, .tail _ ho⟩
  | cons c u start ih =>
      rw [scan_cons_of_none start]
      rcases List.infix_cons_iff.mp occurs with here | later
      · exact absurd here (Mark.not_prefix_of_starting?_eq_none start (.operator op))
      · obtain ⟨o, ho⟩ := ih later
        exact ⟨o, mark_mem_extend.mpr ho⟩

/-- Where only one operator is found, what is found is that one. -/
theorem eq_of_only {op o : Operator} {u : Text} (only : ∀ o, o ≠ op → .mark (.operator o) ∉ scan u)
    (found : .mark (.operator o) ∈ scan u) : o = op :=
  Decidable.byContradiction fun other => only o other found

/-- No run contains a parenthesis. -/
theorem parenthesis_notMem_run {u r : Text} (h : .run r ∈ scan u) : '(' ∉ r ∧ ')' ∉ r := by
  induction u using scan_induction generalizing r with
  | nil => simp [scan_nil] at h
  | mark m u ih =>
      rw [scan_text_append] at h
      simp only [List.mem_cons, reduceCtorEq, false_or] at h
      exact ih h
  | cons c u start ih =>
      have opening : '(' ≠ c := fun same =>
        Mark.not_prefix_of_starting?_eq_none start .opening (by rw [← same]; exact ⟨u, rfl⟩)
      have closing : ')' ≠ c := fun same =>
        Mark.not_prefix_of_starting?_eq_none start .closing (by rw [← same]; exact ⟨u, rfl⟩)
      rw [scan_cons_of_none start] at h
      cases tokens : scan u with
      | nil =>
          simp only [tokens, extend, List.mem_singleton, run.injEq] at h
          simp [h, opening, closing]
      | cons t ts =>
          rw [tokens] at h ih
          cases t with
          | mark m =>
              simp only [extend, List.mem_cons, run.injEq, reduceCtorEq, false_or] at h
              rcases h with rfl | h
              · simp [opening, closing]
              · exact ih (.tail _ h)
          | run s =>
              simp only [extend, List.mem_cons, run.injEq] at h
              rcases h with rfl | h
              · have inner := ih (.head ts)
                simp [opening, closing, inner]
              · exact ih (.tail _ h)

end Token

end ChoiceLogic.Markup
