import ChoiceLogic.Proofs.Markup.Pairs

/-! # Closed texts

A balanced text is closed just if no operator is found behind a balanced beginning of it. The segments of
a balanced text are closed, and stay so without the blanks at their ends. So a segment has operators only
inside its own parentheses.
-/

namespace ChoiceLogic.Markup

open Text

variable {op : Operator} {b : Char} {t u v g h first : Text} {items : List (Operator × Text)}

theorem Closed.not_found (closed : Closed (u ++ (op.separator ++ v))) (balanced : Balanced u) :
    ¬ Found (u ++ (op.separator ++ v)) (.operator op) v := by
  intro found
  have cut := found.operator_mem_segments rfl balanced
  rw [show (segments (Token.scan (u ++ (op.separator ++ v)))).2 = [] from closed] at cut
  cases cut

theorem exists_found_of_not_closed (balanced : Balanced t) (opened : ¬ Closed t) :
    ∃ u op v, t = u ++ (op.separator ++ v) ∧ Balanced u ∧ Found t (.operator op) v := by
  obtain ⟨⟨first, items⟩, segs⟩ : ∃ s, segments (Token.scan t) = s := ⟨_, rfl⟩
  cases items with
  | nil => exact absurd (congrArg Prod.snd segs) opened
  | cons s more =>
      obtain ⟨op, second⟩ := s
      obtain ⟨v, whole, found, -, before, -, -⟩ := exists_of_segments balanced segs
      exact ⟨first, op, v, whole, before, found⟩

/-- What is behind an operator has no part in its being found, so one that is found in the beginning of a
text is found in the whole. -/
theorem Closed.of_append (closed : Closed (t ++ h)) (balanced : Balanced t) : Closed t := by
  refine Decidable.byContradiction fun opened => ?_
  obtain ⟨u, op, v, rfl, before, found⟩ := exists_found_of_not_closed balanced opened
  rw [List.append_assoc, List.append_assoc] at closed
  exact closed.not_found before (found.of_tail (v ++ h))

/-- A blank that keeps an operator from being found is the start of another one. -/
theorem Closed.of_cons_blank (closed : Closed (b :: t)) (blank : isBlank b) (balanced : Balanced t) :
    Closed t := by
  refine Decidable.byContradiction fun opened => ?_
  obtain ⟨u, op, v, rfl, before, found⟩ := exists_found_of_not_closed balanced opened
  cases start : Mark.starting? (b :: (u ++ (op.separator ++ v))) with
  | none =>
      have bare : Bare [b] := bare_of_blank (by simpa [Blank] using blank)
      have whole : Balanced (b :: u) := (balanced_of_bare bare).append before
      exact closed.not_found (u := b :: u) whole ((found_cons_iff start).mpr found)
  | some m =>
      obtain ⟨rest, whole⟩ := Mark.isPrefix_of_starting?_eq_some start
      cases m with
      | opening | closing =>
          obtain ⟨rfl, -⟩ := List.cons.inj whole
          exact absurd blank (by decide)
      | operator o =>
          have here : Found ([] ++ (o.separator ++ rest)) (.operator o) rest :=
            found_text_append_iff.mpr (.inl ⟨rfl, rfl⟩)
          rw [← whole] at closed
          exact Closed.not_found (u := []) closed rfl here

theorem Closed.of_blank_append (closed : Closed (g ++ t)) (blank : Blank g) (balanced : Balanced t) :
    Closed t := by
  induction g with
  | nil => exact closed
  | cons b g ih =>
      have rest : Blank g := fun c hc => blank c (.tail b hc)
      have balanced' : Balanced (g ++ t) := (balanced_of_bare (bare_of_blank rest)).append balanced
      exact ih (Closed.of_cons_blank closed (blank b (.head g)) balanced') rest

theorem Closed.trim (closed : Closed t) (balanced : Balanced t) : Closed (trim t) := by
  obtain ⟨g, h, blank, -, whole⟩ := padded_trim t
  have inner : Balanced (Text.trim t) := balanced_trim_iff.mpr balanced
  have start : Balanced (g ++ Text.trim t) := (balanced_of_bare (bare_of_blank blank)).append inner
  rw [whole] at closed
  exact (closed.of_append start).of_blank_append blank inner

/-- Each segment ends at the first operator outside all parentheses, and none is left in it. -/
theorem closed_of_mem_segments (balanced : Balanced t) (segs : segments (Token.scan t) = (first, items)) :
    ∀ q ∈ first :: items.map (·.2), Balanced q ∧ Closed q := by
  induction items generalizing t first with
  | nil =>
      have closed : Closed t := congrArg Prod.snd segs
      obtain rfl : t = first := congrArg Prod.fst ((segments_of_closed closed).symm.trans segs)
      simpa using ⟨balanced, closed⟩
  | cons s items ih =>
      obtain ⟨op, second⟩ := s
      obtain ⟨w, -, -, closed, before, behind, rest⟩ := exists_of_segments balanced segs
      intro q hq
      rcases List.mem_cons.mp hq with rfl | later
      · exact ⟨before, closed⟩
      · exact ih behind rest q later

end ChoiceLogic.Markup
