import ChoiceLogic.Proofs.Markup.Balance

/-! # Where marks are found

A mark that is found divides the tokens of a text into those of the text before it and those of the
text behind it. What is behind an operator has no part in its being found. Blanks in front of a text
matter only if the text starts with the word of an operator, which can take the last of them.
-/

namespace ChoiceLogic.Markup

open Text

variable {t u v w : Text} {c : Char} {m n : Mark} {o op : Operator} {ts us : List Token}

/-- The mark is found in the first text, and behind it the second. -/
def Found (t : Text) (m : Mark) (v : Text) : Prop :=
  .mark m :: Token.scan v <:+ Token.scan t

theorem Token.scan_injective (h : scan t = scan u) : t = u := by
  rw [← flatMap_text_scan t, h, flatMap_text_scan]

theorem Token.mark_suffix_extend_iff : .mark m :: us <:+ extend c ts ↔ .mark m :: us <:+ ts := by
  cases ts with
  | nil => simp [extend, List.suffix_cons_iff]
  | cons t ts => cases t <;> simp [extend, List.suffix_cons_iff]

theorem Mark.starting?_eq_none_of_append (h : starting? (u ++ v) = none) : starting? u = none := by
  cases start : starting? u with
  | none => rfl
  | some m =>
      have here := (isPrefix_of_starting?_eq_some start).trans (List.prefix_append u v)
      exact absurd here (not_prefix_of_starting?_eq_none h m)

/-! ## Step by step -/

theorem found_nil : ¬ Found [] m v := by
  simp [Found, Token.scan_nil]

theorem found_text_append_iff : Found (n.text ++ t) m v ↔ n = m ∧ t = v ∨ Found t m v := by
  rw [Found, Token.scan_text_append, List.suffix_cons_iff, List.cons.injEq, Token.mark.injEq]
  refine or_congr (and_congr eq_comm ?_) Iff.rfl
  exact ⟨fun same => (Token.scan_injective same).symm, fun same => congrArg _ same.symm⟩

theorem found_cons_iff (start : Mark.starting? (c :: t) = none) : Found (c :: t) m v ↔ Found t m v := by
  rw [Found, Token.scan_cons_of_none start, Token.mark_suffix_extend_iff, Found]

/-- The text and its tokens, divided at the mark. -/
theorem found_iff : Found t m v ↔
    ∃ u, t = u ++ (m.text ++ v) ∧ Token.scan t = Token.scan u ++ .mark m :: Token.scan v := by
  refine ⟨fun h => ?_, fun ⟨u, _, tokens⟩ => ⟨Token.scan u, tokens.symm⟩⟩
  induction t using Token.scan_induction with
  | nil => exact absurd h found_nil
  | mark n t ih =>
      rcases found_text_append_iff.mp h with ⟨rfl, rfl⟩ | h
      · exact ⟨[], rfl, Token.scan_text_append n t⟩
      · obtain ⟨u, rfl, tokens⟩ := ih h
        refine ⟨n.text ++ u, (List.append_assoc ..).symm, ?_⟩
        rw [Token.scan_text_append, tokens, Token.scan_text_append, List.cons_append]
  | cons c t start ih =>
      obtain ⟨u, rfl, tokens⟩ := ih ((found_cons_iff start).mp h)
      have alone : Mark.starting? (c :: u) = none := Mark.starting?_eq_none_of_append start
      refine ⟨c :: u, rfl, ?_⟩
      rw [Token.scan_cons_of_none start, tokens, Token.extend_append, Token.scan_cons_of_none alone]

theorem exists_scan_eq_of_suffix (h : .mark m :: us <:+ Token.scan t) : ∃ v, us = Token.scan v := by
  induction t using Token.scan_induction with
  | nil => simp [Token.scan_nil] at h
  | mark n t ih =>
      rw [Token.scan_text_append, List.suffix_cons_iff] at h
      rcases h with same | h
      · exact ⟨t, (List.cons.inj same).2⟩
      · exact ih h
  | cons c t start ih =>
      rw [Token.scan_cons_of_none start, Token.mark_suffix_extend_iff] at h
      exact ih h

/-- Dividing the tokens at a mark divides the text. -/
theorem exists_found_of_scan_eq (h : Token.scan t = ts ++ .mark m :: us) :
    ∃ u v, t = u ++ (m.text ++ v) ∧ ts = Token.scan u ∧ us = Token.scan v ∧ Found t m v := by
  have behind : .mark m :: us <:+ Token.scan t := ⟨ts, h.symm⟩
  obtain ⟨v, rfl⟩ := exists_scan_eq_of_suffix behind
  obtain ⟨u, whole, tokens⟩ := found_iff.mp behind
  exact ⟨u, v, whole, List.append_cancel_right (h.symm.trans tokens), rfl, behind⟩

theorem Found.mem (h : Found t m v) : .mark m ∈ Token.scan t :=
  h.subset (.head _)

theorem Found.trans (h : Found t m v) (later : Found v n w) : Found t n w :=
  List.IsSuffix.trans later (List.IsSuffix.trans (List.suffix_cons _ _) h)

/-- Of two marks that are found in a text, the first is found behind the second, or the second behind
the first, or they are one. -/
theorem Found.cases (hm : Found t m v) (hn : Found t n w) :
    Found v n w ∨ (m = n ∧ v = w) ∨ Found w m v := by
  rcases List.suffix_or_suffix_of_suffix hm hn with h | h
  · rcases List.suffix_cons_iff.mp h with same | h
    · obtain ⟨mark, tokens⟩ := List.cons.inj same
      exact .inr (.inl ⟨Token.mark.inj mark, Token.scan_injective tokens⟩)
    · exact .inr (.inr h)
  · rcases List.suffix_cons_iff.mp h with same | h
    · obtain ⟨mark, tokens⟩ := List.cons.inj same
      exact .inr (.inl ⟨(Token.mark.inj mark).symm, (Token.scan_injective tokens).symm⟩)
    · exact .inl h

/-! ## What is behind -/

/-- No mark reaches beyond a blank that it does not start with. -/
theorem Mark.starting?_append_space (hu : u ≠ []) (v w : Text) :
    starting? (u ++ ' ' :: v) = starting? (u ++ ' ' :: w) := by
  have within (m : Mark) (v w : Text) (h : m.text <+: u ++ ' ' :: v) : m.text <+: u ++ ' ' :: w := by
    rcases prefix_append_cases h with h | ⟨d, s, across, start⟩
    · exact h.trans (List.prefix_append _ _)
    · obtain ⟨rfl, -⟩ := List.cons_prefix_cons.mp start
      cases m with
      | opening | closing =>
          obtain ⟨x, xs, rfl⟩ := List.exists_cons_of_ne_nil hu
          simp [Mark.text] at across
      | operator o =>
          rcases spaced_eq_append_cons hu (o.separator_eq_spaced.symm.trans across) with inside | ⟨-, rfl⟩
          · exact absurd inside (o.isWord_name.not_mem_of_isBlank isBlank_space)
          · exact ⟨w, by simp [Mark.text, o.separator_eq]⟩
  exact starting?_congr fun m => ⟨within m v w, within m w v⟩

theorem Found.of_tail (h : Found (u ++ (op.separator ++ v)) (.operator op) v) (w : Text) :
    Found (u ++ (op.separator ++ w)) (.operator op) w := by
  induction u using Token.scan_induction with
  | nil => exact found_text_append_iff.mpr (.inl ⟨rfl, rfl⟩)
  | mark n u ih =>
      rw [List.append_assoc] at h ⊢
      rcases found_text_append_iff.mp h with ⟨-, same⟩ | h
      · have sum := congrArg List.length same
        have pos : 0 < op.separator.length := Mark.text_length_pos (.operator op)
        simp only [List.length_append] at sum
        omega
      · exact found_text_append_iff.mpr (.inr (ih h))
  | cons c u start ih =>
      rw [List.cons_append] at h ⊢
      cases crossing : Mark.starting? (c :: (u ++ (op.separator ++ v))) with
      | none =>
          have crossing' : Mark.starting? (c :: (u ++ (op.separator ++ w))) = none := by
            rw [← crossing, op.separator_eq]
            exact Mark.starting?_append_space (List.cons_ne_nil c u) _ _
          exact (found_cons_iff crossing').mpr (ih ((found_cons_iff crossing).mp h))
      | some n =>
          -- The mark reaches into the operator, so that too little of the text is left behind it.
          obtain ⟨rest, whole⟩ := Mark.isPrefix_of_starting?_eq_some crossing
          have longer : (c :: u).length < n.text.length := by
            refine Nat.lt_of_not_le fun short => Mark.not_prefix_of_starting?_eq_none start n ?_
            exact List.prefix_of_prefix_length_le ⟨rest, whole⟩ (List.prefix_append (c :: u) _) short
          have sum := congrArg List.length whole
          simp only [List.length_append, List.length_cons] at sum longer
          rw [← whole] at h
          rcases found_text_append_iff.mp h with ⟨rfl, rfl⟩ | h
          · simp only [Mark.text] at sum
            omega
          · obtain ⟨x, rfl, -⟩ := found_iff.mp h
            have separator : (Mark.operator op).text = op.separator := rfl
            simp only [List.length_append, separator] at sum
            omega

/-! ## Blanks in front -/

/-- Blanks in front of a text take part in no mark, unless the text starts with the word of an operator
and a space. -/
theorem Found.of_blank_append {g : Text} (hg : Blank g) (h : Found (g ++ t) (.operator op) v) :
    Found t (.operator op) v ∨
      ∃ (o : Operator) (rest : Text), t = o.name ++ ' ' :: rest ∧
        (o = op ∧ rest = v ∨ Found rest (.operator op) v) := by
  induction g with
  | nil => exact .inl h
  | cons b g ih =>
      rw [List.cons_append] at h
      cases start : Mark.starting? (b :: (g ++ t)) with
      | none => exact ih (fun d hd => hg d (.tail b hd)) ((found_cons_iff start).mp h)
      | some n =>
          have blank := hg b (.head g)
          obtain ⟨rest, whole⟩ := Mark.isPrefix_of_starting?_eq_some start
          cases n with
          | opening | closing =>
              obtain ⟨rfl, -⟩ := List.cons.inj whole
              exact absurd blank (by decide)
          | operator o =>
              have word : o.name ++ ' ' :: rest = g ++ t := by
                have split : ' ' :: (o.name ++ ' ' :: rest) = b :: (g ++ t) := by
                  rw [← whole]
                  simp [Mark.text, o.separator_eq]
                exact (List.cons.inj split).2
              obtain rfl : g = [] := by
                obtain ⟨d, name, letters⟩ := List.exists_cons_of_ne_nil o.isWord_name.nonempty
                cases g with
                | nil => rfl
                | cons e g =>
                    rw [letters] at word
                    obtain ⟨rfl, -⟩ := List.cons.inj word
                    have letter := o.isWord_name.noBlank d (by simp [letters])
                    exact absurd (hg d (.tail b (.head g))) (by simp [letter])
              rw [← whole] at h
              refine .inr ⟨o, rest, word.symm, ?_⟩
              rcases found_text_append_iff.mp h with ⟨same, behind⟩ | h
              · exact .inl ⟨Mark.operator.inj same, behind⟩
              · exact .inr h

/-- The word of an operator in front of a text takes part in no mark, unless another operator shares
the space between them. -/
theorem Found.word_append (h : Found t m v) (alone : ∀ op : Operator, ¬ op.separator <+: ' ' :: t) :
    Found (o.name ++ ' ' :: t) m v := by
  have start : Mark.starting? (' ' :: t) = none := by
    cases start : Mark.starting? (' ' :: t) with
    | none => rfl
    | some n =>
        have here := Mark.isPrefix_of_starting?_eq_some start
        cases n with
        | opening | closing => simp [Mark.text, List.cons_prefix_cons] at here
        | operator op => exact absurd here (alone op)
  have space := (found_cons_iff start).mpr h
  cases o with
  | and => exact (found_cons_iff rfl).mpr ((found_cons_iff rfl).mpr ((found_cons_iff rfl).mpr space))
  | or => exact (found_cons_iff rfl).mpr ((found_cons_iff rfl).mpr space)

end ChoiceLogic.Markup
