import ChoiceLogic.Proofs.Combine.FixedPoints
import ChoiceLogic.Proofs.Reading.Rereading
import ChoiceLogic.Proofs.Reading.RoundTrip

/-! # Canonical texts that stay as they are

Reading a canonical text again need not give the same text. It does exactly if the text is that of a
legible expression and keeps to the limits: a canonical text can be longer than the text it was made
from, because one pair of parentheses can stand inside several operators.
-/

namespace ChoiceLogic.Reading

open Markup Selection Text Expression

variable {e : Expression}

/-- An expression whose text is read as the expression without loss is legible. -/
theorem Faithful.legible (h : Faithful e.render e) : e.Legible := by
  cases e with
  | blank =>
      have sign := h.contains_sign
      simp [render, Assignment.sign] at sign
  | assignment a =>
      cases h.over_legible with
      | assignment legible => exact .assignment legible
  | operation op es =>
      have wide := Nat.lt_succ_self (width (render (.operation op es)))
      exact (h.totalBurden_le_operation h.over_legible h.canonical (.inl rfl) wide).2 (Nat.le_refl _)

theorem Reads.legible (h : Reads e.render e) : e = .blank ∨ e.Legible := by
  by_cases blank : Blank e.render
  · exact .inl (h.eq_blank blank)
  · exact .inr (h.faithful blank (Nat.le_refl _)).legible

/-- The text of an expression is read as the expression just where the expression is legible and the
limits allow. -/
theorem read_render_iff (limits : Limits) (e : Expression) :
    (read limits e.render).result = .ok e ↔
      e.render.byteSize ≤ limits.maxBytes ∧ (e = .blank ∨ e.Legible) ∧
        e.levelsNeeded ≤ limits.maxDepth := by
  by_cases fits : e.render.byteSize ≤ limits.maxBytes
  · constructor
    · intro again
      have legible := (reads_of_readAt (read_result fits ▸ again)).legible
      rw [read_render_of_legible legible fits] at again
      split at again
      · next levels => exact ⟨fits, legible, levels⟩
      · cases again
    · intro stays
      obtain ⟨-, legible, levels⟩ := stays
      rw [read_render_of_legible legible fits, if_pos levels]
  · have long : (read limits e.render).result =
        .error (.tooLong (Text.byteSize e.render) limits.maxBytes) := by
      rw [read, if_pos (Nat.lt_of_not_le fits)]
      rfl
    rw [long]
    simp [fits]

/-- Making the canonical text twice gives what making it once gives, and no fault, just where the text
is short enough and is that of a legible expression that is not too deep. -/
theorem canonicalText_idempotent_iff (x : Text) :
    (canonicalText x).bind canonicalText = canonicalText x ↔
      ∀ s, canonicalText x = .ok s → s.byteSize ≤ 65536 ∧
        ∃ e : Expression, e.render = s ∧ (e = .blank ∨ e.Legible) ∧ e.levelsNeeded ≤ 64 := by
  cases first : canonicalText x with
  | error fault => simp [Except.bind]
  | ok s =>
      have again : canonicalText s = .ok s ↔ ∃ e, (read {} s).result = .ok e ∧ e.render = s := by
        change (read {} s).result.map render = .ok s ↔ _
        cases (read {} s).result with
        | error fault => simp [Except.map]
        | ok e => simp [Except.map]
      simp only [Except.bind, Except.ok.injEq, forall_eq', again]
      constructor
      · intro same
        obtain ⟨e, read, rfl⟩ := same
        obtain ⟨fits, legible, levels⟩ := (read_render_iff {} e).mp read
        exact ⟨fits, e, rfl, legible, levels⟩
      · intro stays
        obtain ⟨fits, e, rfl, legible, levels⟩ := stays
        exact ⟨e, (read_render_iff {} e).mpr ⟨fits, legible, levels⟩, rfl⟩

theorem combine_assignment (op : Operator) (a : Assignment) :
    combine op [.assignment a] = .assignment a :=
  combine_singleton op (.assignment a)

/-- Dropping a repeat leaves one operator, and with it the value loses its parentheses. -/
theorem canonicalText_not_idempotent :
    let x := "A = (B) AND (C = D OR C = D)".toList
    canonicalText x = .ok "A = (B) AND C = D".toList ∧
      (canonicalText x).bind canonicalText = .ok "A = B AND C = D".toList ∧
      (canonicalText x).bind canonicalText ≠ canonicalText x := by
  intro x
  let a : Assignment := ⟨['A'], "(B)".toList, by decide, by decide⟩
  let b : Assignment := ⟨['A'], ['B'], by decide, by decide⟩
  let c : Assignment := ⟨['C'], ['D'], by decide, by decide⟩
  have pair (d : Assignment) (h : CanonicalNode .and [.assignment d, .assignment c]) :
      combine .and [.assignment d, .assignment c] = .operation .and [.assignment d, .assignment c] :=
    combine_of_canonicalNode h
  have inner : (readAt 64 64 1 "(C = D OR C = D)".toList).result = .ok (.assignment c) := by
    have plan : Plan.of "(C = D OR C = D)".toList =
      .split (.fragments .or 1) .or ["C = D".toList] := rfl
    have parts : (Logged.each (readAt 64 63 2) ["C = D".toList]).result = .ok [.assignment c] := rfl
    rw [readAt_split plan, parts]
    exact congrArg Except.ok (combine_assignment .or c)
  have once : canonicalText x = .ok "A = (B) AND C = D".toList := by
    have plan : Plan.of x =
      .split (.segments .and 2) .and ["A = (B)".toList, "(C = D OR C = D)".toList] := rfl
    have first : (readAt 64 64 1 "A = (B)".toList).result = .ok (.assignment a) := rfl
    have parts : (Logged.each (readAt 64 64 1) ["A = (B)".toList, "(C = D OR C = D)".toList]).result =
        .ok [.assignment a, .assignment c] := by
      simp only [Logged.each, first, inner]
      rfl
    rw [canonicalText, parse, read_result (by decide), readAt_split plan, parts]
    exact congrArg (fun e => Except.ok (render e)) (pair a ⟨by decide, by simp, by decide, by decide⟩)
  have twice : canonicalText "A = (B) AND C = D".toList = .ok "A = B AND C = D".toList := by
    have plan : Plan.of "A = (B) AND C = D".toList =
      .split (.fragments .and 2) .and ["A = B".toList, "C = D".toList] := rfl
    have parts : (Logged.each (readAt 64 64 1) ["A = B".toList, "C = D".toList]).result =
        .ok [.assignment b, .assignment c] := rfl
    rw [canonicalText, parse, read_result (by decide), readAt_split plan, parts]
    exact congrArg (fun e => Except.ok (render e)) (pair b ⟨by decide, by simp, by decide, by decide⟩)
  have bound : (canonicalText x).bind canonicalText = .ok "A = B AND C = D".toList := by
    rw [once]
    exact twice
  refine ⟨once, bound, ?_⟩
  rw [bound, once]
  simp

end ChoiceLogic.Reading
