import ChoiceLogic.Proofs.Markup.Balance

/-! # Segments

A text that is put together from balanced parts with one operator between them has just these parts
as its segments, when none of them has an operator outside its own parentheses and none but the last
ends in the word of one.
-/

namespace ChoiceLogic.Markup

section Segments

variable {level behind : Nat} {ts us : List Token}

/-- No operator stands outside all parentheses. -/
def Closed (t : Text) : Prop :=
  (segments (Token.scan t)).2 = []

instance (t : Text) : Decidable (Closed t) :=
  inferInstanceAs (Decidable (_ = _))

theorem segmentsAt_cons_operator (op : Operator) (ts : List Token) :
    segmentsAt 0 (.mark (.operator op) :: ts) =
      ([], (op, (segmentsAt 0 ts).1) :: (segmentsAt 0 ts).2) := rfl

theorem segmentsAt_cons {t : Token} (h : level = 0 → ∀ op, t ≠ .mark (.operator op)) (ts : List Token) :
    segmentsAt level (t :: ts) =
      (t.text ++ (segmentsAt (t.levelAfter level) ts).1, (segmentsAt (t.levelAfter level) ts).2) := by
  rw [segmentsAt]
  exact fun op same zero => h zero op same

/-- The segments are made of everything but the operators that they stand between. -/
theorem text_of_segmentsAt (level : Nat) (ts : List Token) :
    ts.flatMap Token.text =
      (segmentsAt level ts).1 ++ (segmentsAt level ts).2.flatMap fun s => s.1.separator ++ s.2 := by
  induction ts generalizing level with
  | nil => rfl
  | cons t ts ih =>
      by_cases cut : level = 0 ∧ ∃ op, t = .mark (.operator op)
      · obtain ⟨rfl, op, rfl⟩ := cut
        rw [segmentsAt_cons_operator, List.flatMap_cons, ih 0]
        simp [Token.text, Mark.text]
      · have other : level = 0 → ∀ op, t ≠ .mark (.operator op) :=
          fun zero op same => cut ⟨zero, op, same⟩
        rw [segmentsAt_cons other, List.flatMap_cons, ih (t.levelAfter level), List.append_assoc]

/-- Tokens with no operator at level zero go into the segment that is open before them. -/
theorem segmentsAt_append (h : RunsBare ts)
    (through : levelThrough? level (ts.flatMap Token.text) = some behind)
    (closed : (segmentsAt level ts).2 = []) :
    segmentsAt level (ts ++ us) =
      (ts.flatMap Token.text ++ (segmentsAt behind us).1, (segmentsAt behind us).2) := by
  induction ts generalizing level with
  | nil =>
      obtain rfl := Option.some.inj through
      rfl
  | cons t ts ih =>
      have other : level = 0 → ∀ op, t ≠ .mark (.operator op) := by
        rintro rfl op rfl
        simp [segmentsAt_cons_operator] at closed
      rw [levelThrough?_tokens_cons h] at through
      split at through
      · cases through
      · rw [segmentsAt_cons other] at closed
        rw [List.cons_append, segmentsAt_cons other, ih h.tail through closed]
        simp

/-- Inside a pair of parentheses there is no operator outside all of them. -/
theorem segmentsAt_inside (h : RunsBare ts)
    (through : levelThrough? level (ts.flatMap Token.text) = some behind) :
    (segmentsAt (level + 1) ts).2 = [] := by
  induction ts generalizing level with
  | nil => rfl
  | cons t ts ih =>
      rw [levelThrough?_tokens_cons h] at through
      split at through
      · cases through
      · next early =>
          rw [segmentsAt_cons (by simp), levelAfter_succ early]
          exact ih h.tail through

end Segments

/-! ## Texts in parts -/

section Parts

variable {op : Operator} {u v : Text} {ps : List Text}

theorem segments_of_closed (h : Closed u) : segments (Token.scan u) = (u, []) := by
  have whole := text_of_segmentsAt 0 (Token.scan u)
  rw [Token.flatMap_text_scan, show (segmentsAt 0 (Token.scan u)).2 = [] from h, List.flatMap_nil,
    List.append_nil] at whole
  exact Prod.ext whole.symm h

theorem closed_of_no_operator (h : ∀ op, .mark (.operator op) ∉ Token.scan u) : Closed u := by
  have within (level : Nat) (ts : List Token) (none : ∀ op, .mark (.operator op) ∉ ts) :
      (segmentsAt level ts).2 = [] := by
    induction ts generalizing level with
    | nil => rfl
    | cons t ts ih =>
        have other : level = 0 → ∀ op, t ≠ .mark (.operator op) :=
          fun _ op same => none op (same ▸ .head ts)
        rw [segmentsAt_cons other]
        exact ih _ fun op hop => none op (.tail t hop)
  exact within 0 _ h

/-- Around a balanced text in parentheses there may be more that is closed. -/
theorem closed_append_enclosed {g h : Text} (balanced : Balanced g) (before : Closed g)
    (inner : Balanced u) (behind : Closed h) : Closed (g ++ '(' :: (u ++ ')' :: h)) := by
  have opening := Token.scan_append .opening (u := g) trivial (u ++ ')' :: h)
  have closing := Token.scan_append .closing (u := u) trivial h
  have throughG := balanced.through_scan
  have throughU := inner.through_scan
  simp only [Mark.text, List.singleton_append] at opening closing
  rw [Closed, opening, closing, segments, segmentsAt_append (runsBare_scan g) throughG before,
    segmentsAt_cons (by simp)]
  change (segmentsAt 1 (Token.scan u ++ .mark .closing :: Token.scan h)).2 = []
  rw [segmentsAt_append (runsBare_scan u) (levelThrough?_add throughU 1)
    (segmentsAt_inside (runsBare_scan u) throughU), segmentsAt_cons (by simp)]
  exact behind

theorem closed_enclosed (h : Balanced u) : Closed ('(' :: (u ++ [')'])) := by
  have nothing : Closed [] := rfl
  exact closed_append_enclosed (g := []) rfl nothing h nothing

theorem last_of_endsInOperator {c : Char} (h : EndsInOperator (u ++ [c])) : c = 'D' ∨ c = 'R' := by
  obtain ⟨op, a, ends⟩ := h
  have last := congrArg List.getLast? ends
  rw [List.getLast?_concat] at last
  cases op with
  | and => exact .inl (by simpa [Operator.name, eq_comm] using last)
  | or => exact .inr (by simpa [Operator.name, eq_comm] using last)

theorem not_endsInOperator_closing (u : Text) : ¬ EndsInOperator (u ++ [')']) := by
  intro ends
  have last := last_of_endsInOperator ends
  simp at last

theorem not_endsInOperator_enclosed (u : Text) : ¬ EndsInOperator ('(' :: (u ++ [')'])) :=
  not_endsInOperator_closing ('(' :: u)

theorem segments_append_operator (balanced : Balanced u) (closed : Closed u)
    (apart : ¬ EndsInOperator u) (v : Text) :
    segments (Token.scan (u ++ op.separator ++ v)) =
      (u, (op, (segments (Token.scan v)).1) :: (segments (Token.scan v)).2) := by
  rw [Token.scan_append_operator op apart, segments,
    segmentsAt_append (runsBare_scan u) balanced.through_scan closed, Token.flatMap_text_scan,
    segmentsAt_cons_operator, List.append_nil]
  rfl

/-- Cutting what was joined gives the parts back. -/
theorem segments_intercalate {p : Text} (balanced : ∀ q ∈ p :: ps, Balanced q)
    (closed : ∀ q ∈ p :: ps, Closed q) (apart : ∀ q ∈ (p :: ps).dropLast, ¬ EndsInOperator q) :
    segments (Token.scan (op.separator.intercalate (p :: ps))) = (p, ps.map (op, ·)) := by
  induction ps generalizing p with
  | nil => simpa using segments_of_closed (closed p (.head _))
  | cons q ps ih =>
      have later := ih (fun r hr => balanced r (.tail p hr)) (fun r hr => closed r (.tail p hr))
        fun r hr => apart r (.tail p hr)
      rw [List.intercalate_cons_cons,
        segments_append_operator (balanced p (.head _)) (closed p (.head _)) (apart p (.head _)), later]
      rfl

/-- The marks of a joined text are those of its parts and the operators between them. -/
theorem mark_mem_scan_intercalate {m : Mark} (nonempty : ps ≠ [])
    (apart : ∀ q ∈ ps.dropLast, ¬ EndsInOperator q) :
    .mark m ∈ Token.scan (op.separator.intercalate ps) ↔
      (∃ p ∈ ps, .mark m ∈ Token.scan p) ∨ 2 ≤ ps.length ∧ m = .operator op := by
  induction ps with
  | nil => exact absurd rfl nonempty
  | cons p ps ih =>
      cases ps with
      | nil => simp
      | cons q ps =>
          have later := ih (List.cons_ne_nil q ps) fun r hr => apart r (.tail p hr)
          rw [List.intercalate_cons_cons, Token.scan_append_operator op (apart p (.head _)),
            List.mem_append, List.mem_cons, later]
          simp only [List.mem_cons, exists_eq_or_imp, List.length_cons, Token.mark.injEq]
          constructor
          · rintro (h | rfl | (h | h) | ⟨-, rfl⟩)
            · exact .inl (.inl h)
            · exact .inr ⟨by omega, rfl⟩
            · exact .inl (.inr (.inl h))
            · exact .inl (.inr (.inr h))
            · exact .inr ⟨by omega, rfl⟩
          · rintro ((h | h | h) | ⟨-, rfl⟩)
            · exact .inl h
            · exact .inr (.inr (.inl (.inl h)))
            · exact .inr (.inr (.inl (.inr h)))
            · exact .inr (.inl rfl)

end Parts

end ChoiceLogic.Markup
