import ChoiceLogic.Proofs.Json.Encoding
import ChoiceLogic.Proofs.Reading.Leaves
import ChoiceLogic.Proofs.Reading.Levels
import ChoiceLogic.Proofs.Reading.SameText

/-! # The canonical text and the key

Both are made of what a text is read as, and either is meant to stand for it. The bytes that the key is
made of never mix up two expressions. The canonical text does: a family that ends in `=` and a value that
starts with it look the same, and blanks that are dropped in reading can leave either behind.
-/

namespace ChoiceLogic.Reading

open Markup Text Expression

variable {x y : Text} {e d : Expression}

theorem reads_of_parse (read : parse x = .ok e) : Reads x e :=
  reads_of_readAt (readAt_of_read read)

/-- A blank has the text of no other expression, so only expressions over assignments need to be
compared. -/
theorem Reads.eq_of_render_eq (hx : Reads x e) (hy : Reads y d)
    (compared : Over (fun _ => True) e → Over (fun _ => True) d → e = d)
    (text : e.render = d.render) : e = d := by
  rcases hx.eq_blank_or_over with rfl | overE
  · rcases hy.eq_blank_or_over with rfl | overD
    · rfl
    · exact absurd text.symm (overD.render_ne_nil hy.canonical)
  · rcases hy.eq_blank_or_over with rfl | overD
    · exact absurd text (overE.render_ne_nil hx.canonical)
    · exact compared overE overD

/-- Two texts that are accepted give the same bytes to the key exactly if they have the same canonical
text and the same leaves in it. With leaves that are found again in the text, the canonical text alone
decides. -/
theorem utf8_encode_parse (hx : parse x = .ok e) (hy : parse y = .ok d) :
    (utf8 e.encode = utf8 d.encode ↔ e.render = d.render ∧ e.assignments = d.assignments) ∧
      ((∀ a ∈ e.assignments, a.Separable) → (∀ a ∈ d.assignments, a.Separable) →
        (e.render = d.render ↔ utf8 e.encode = utf8 d.encode)) := by
  have readX := reads_of_parse hx
  have readY := reads_of_parse hy
  have bytes : utf8 e.encode = utf8 d.encode ↔ e = d :=
    ⟨eq_of_utf8_encode_eq, congrArg fun e : Expression => utf8 e.encode⟩
  rw [bytes]
  constructor
  · constructor
    · rintro rfl
      exact ⟨rfl, rfl⟩
    · intro same
      obtain ⟨text, leaves⟩ := same
      apply readX.eq_of_render_eq readY _ text
      intro overE overD
      exact eq_of_render_eq_of_assignments_eq overE overD readX.canonical readY.canonical text leaves
  · intro leavesE leavesD
    constructor
    · intro text
      apply readX.eq_of_render_eq readY _ text
      intro overE overD
      exact eq_of_render_eq (overE.of_mem_assignments leavesE) (overD.of_mem_assignments leavesD)
        readX.canonical readY.canonical text
    · rintro rfl
      rfl

/-- With another operator between the same assignments, the text and the bytes are others. -/
theorem utf8_encode_parse_other_operator :
    let a : Assignment := ⟨['A'], ['B'], by decide, by decide⟩
    let c : Assignment := ⟨['C'], ['D'], by decide, by decide⟩
    let e : Expression := .operation .and [.assignment a, .assignment c]
    let d : Expression := .operation .or [.assignment a, .assignment c]
    parse "A = B AND C = D".toList = .ok e ∧ parse "A = B OR C = D".toList = .ok d ∧
      (∀ b ∈ [a, c], b.Separable) ∧ e.render ≠ d.render ∧ utf8 e.encode ≠ utf8 d.encode := by
  intro a c e d
  have readable (op : Operator) (x : Text) (fits : byteSize x ≤ 65536)
      (plan : Plan.of x = .split (.fragments op 2) op ["A = B".toList, "C = D".toList]) :
      parse x = .ok (combine op [.assignment a, .assignment c]) := by
    have parts : (Logged.each (readAt 64 64 1) ["A = B".toList, "C = D".toList]).result =
      .ok [.assignment a, .assignment c] := rfl
    rw [parse, read_result fits, readAt_split plan, parts]
    rfl
  have conjunction : combine .and [.assignment a, .assignment c] = e :=
    combine_of_canonicalNode ⟨by decide, by simp, by decide, by decide⟩
  have disjunction : combine .or [.assignment a, .assignment c] = d :=
    combine_of_canonicalNode ⟨by decide, by simp, by decide, by decide⟩
  have first : parse "A = B AND C = D".toList = .ok e :=
    conjunction ▸ readable .and _ (by decide) rfl
  have second : parse "A = B OR C = D".toList = .ok d :=
    disjunction ▸ readable .or _ (by decide) rfl
  have separable : ∀ b ∈ [a, c], b.Separable := by
    simp only [List.mem_cons, List.not_mem_nil, or_false]
    rintro b (rfl | rfl)
    · exact ⟨⟨by decide, by decide, by decide, by decide⟩, by decide⟩
    · exact ⟨⟨by decide, by decide, by decide, by decide⟩, by decide⟩
  have texts : e.render ≠ d.render := by decide
  have keys := (utf8_encode_parse first second).2 separable separable
  exact ⟨first, second, separable, texts, fun bytes => texts (keys.mpr bytes)⟩

/-- A tab behind the first `=` makes it part of the family, and is dropped. The canonical text is then
that of another assignment, and the keys differ. -/
theorem render_eq_utf8_encode_ne :
    let x := "A = = B".toList
    let y := "A =\t = B".toList
    ∃ e d, parse x = .ok e ∧ parse y = .ok d ∧ e.render = d.render ∧
      utf8 e.encode ≠ utf8 d.encode := by
  intro x y
  let e : Expression := .assignment ⟨"A".toList, "= B".toList, by decide, by decide⟩
  let d : Expression := .assignment ⟨"A =".toList, "B".toList, by decide, by decide⟩
  have first : parse x = .ok e := rfl
  have second : parse y = .ok d := rfl
  have other : e ≠ d := by decide
  exact ⟨e, d, first, second, rfl, fun bytes => other (eq_of_utf8_encode_eq bytes)⟩

end ChoiceLogic.Reading
