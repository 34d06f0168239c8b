import ChoiceLogic.Proofs.Combine.Nodes
import ChoiceLogic.Proofs.Reading.Faithful
import ChoiceLogic.Proofs.Reading.Levels

/-! # The leaves of what is read

A text that is not blank is read as an expression over assignments, with no blank anywhere in it. Each
of its leaves comes from a piece of the text that has just one sign and no operator.
-/

namespace ChoiceLogic

open Markup Text

/-- The parts of the assignment contain nothing that a text is cut at, and its parentheses are
balanced. -/
structure Assignment.Tidy (a : Assignment) : Prop where
  noSign : ∀ part, part = a.family ∨ part = a.value → ¬ sign <:+: part
  noOperator : ∀ part, part = a.family ∨ part = a.value → ∀ op : Operator, ¬ op.separator <:+: part
  balanced : Balanced a.render

theorem Expression.Over.of_within {p : Assignment → Prop} {e x : Expression} (h : e.Over p)
    (inside : e.Within x) : x.Over p := by
  induction inside with
  | self => exact h
  | operand mem _ ih =>
      cases h with
      | operation each => exact ih (each _ mem)

theorem Text.trim_inside (t : Text) : trim t <:+: t := by
  obtain ⟨g, h, -, -, whole⟩ := padded_trim t
  exact ⟨g, h, whole.symm⟩

namespace Reading

open Expression

variable {op : Operator} {t : Text} {pieces parts : List Text} {e : Expression}

theorem Cuts.not_blank (cuts : Cuts t op pieces parts) : ∀ p ∈ parts, ¬ Blank p := by
  cases cuts with
  | flat _ _ filled =>
      intro p hp
      exact filled p (List.mem_eraseDups.mp hp)
  | layered _ _ _ filled =>
      intro _ mem blank
      obtain ⟨p, hp, rfl⟩ := List.mem_map.mp mem
      exact filled p hp (trim_trim p ▸ trim_blank blank)

/-- A property of the assignments that single pieces are read as holds of all leaves. -/
theorem Reads.over {p : Assignment → Prop} (h : Reads t e) (filled : ¬ Blank t)
    (leaf : ∀ {piece family value a}, Balanced (trim piece) →
      (∀ op, .mark (.operator op) ∉ Token.scan (trim piece)) →
      cut Assignment.sign (trim piece) = [family, value] →
      Assignment.ofParts family value = .ok a → p a) : Over p e := by
  induction h with
  | blank blank => exact absurd blank filled
  | single _ balanced noOperator _ parts made => exact .assignment (leaf balanced noOperator parts made)
  | group sign grouped _ _ ih => exact ih (not_blank_of_group? sign grouped)
  | split _ _ cuts each ih =>
      exact over_combine_map cuts.parts_ne_nil (fun p hp => (each p hp).canonical)
        fun p hp => ih p hp (cuts.not_blank p hp)

/-- What a text is read as is blank, or it has assignments at its leaves and nothing else. -/
theorem Reads.eq_blank_or_over (h : Reads t e) : e = .blank ∨ Over (fun _ => True) e := by
  by_cases blank : Blank t
  · exact .inl (h.eq_blank blank)
  · exact .inr (h.over blank fun _ _ _ _ => trivial)

theorem tidy_of_single {family value : Text} {a : Assignment} (balanced : Balanced t)
    (noOperator : ∀ op, .mark (.operator op) ∉ Token.scan t)
    (parts : cut Assignment.sign t = [family, value]) (made : Assignment.ofParts family value = .ok a) :
    a.Tidy := by
  obtain ⟨hf, hv⟩ := Assignment.parts_of_ofParts made
  have whole := text_of_sign parts
  have inside (part : Text) (h : part = a.family ∨ part = a.value) :
      ∃ piece ∈ cut Assignment.sign t, part <:+: piece ∧ piece <:+: t := by
    rw [parts]
    rcases h with rfl | rfl
    · exact ⟨family, .head _, hf ▸ trim_inside family, [], Assignment.sign ++ value, by simp [whole]⟩
    · exact ⟨value, .tail _ (.head _), hv ▸ trim_inside value, family ++ Assignment.sign, [],
        by simp [whole]⟩
  refine ⟨fun part h sign => ?_, fun part h op separator => ?_, ?_⟩
  · obtain ⟨piece, mem, within, -⟩ := inside part h
    rw [Assignment.sign_eq] at mem sign
    exact not_inside_of_mem_cut mem (sign.trans within)
  · obtain ⟨piece, -, within, here⟩ := inside part h
    obtain ⟨o, found⟩ := Token.exists_operator_mem_scan ((separator.trans within).trans here)
    exact noOperator o found
  · rw [Markup.Balanced, whole, levelThrough?_append, levelThrough?_append] at balanced
    rw [Markup.Balanced, Assignment.render, hf, hv, levelThrough?_append, levelThrough?_append,
      levelThrough?_trim]
    simpa only [levelThrough?_trim] using balanced

/-- What a text is read as is blank just if the text is, and otherwise there is no blank in it. The parts
of its leaves have no blank at their ends and contain neither the sign nor an operator, and no leaf
opens or closes parentheses for another. -/
theorem leaves_of_read {limits : Limits} (h : (read limits t).result = .ok e) :
    (e = .blank ↔ Blank t) ∧ (¬ Blank t → ∀ x, e.Within x → x ≠ .blank) ∧
    ∀ a, e.Within (.assignment a) →
      (∀ part, part = a.family ∨ part = a.value →
        Trimmed part ∧ ¬ Assignment.sign <:+: part ∧ ∀ op : Operator, ¬ op.separator <:+: part) ∧
      a.render.count '(' = a.render.count ')' ∧
        ∀ v, v <+: a.render → v.count ')' ≤ v.count '(' := by
  have reads := reads_of_readAt (readAt_of_read h)
  by_cases blank : Blank t
  · obtain rfl := reads.eq_blank blank
    exact ⟨iff_of_true rfl blank, absurd blank, fun a inside => nomatch inside⟩
  · have tidy : Over Assignment.Tidy e := reads.over blank fun balanced noOperator parts made =>
      tidy_of_single balanced noOperator parts made
    have filled (x : Expression) (inside : e.Within x) : x ≠ .blank := by
      rintro rfl
      cases tidy.of_within inside
    refine ⟨iff_of_false (filled e (.self e)) blank, fun _ => filled, fun a inside => ?_⟩
    cases tidy.of_within inside with
    | assignment tidy =>
        refine ⟨fun part here => ⟨?_, tidy.noSign part here, tidy.noOperator part here⟩,
          balanced_iff_count.mp tidy.balanced⟩
        rcases here with rfl | rfl
        · exact a.family_trimmed
        · exact a.value_trimmed

/-- Parentheses may stand in a value, and so may half of a sign at its start. -/
theorem leaves_of_read_odd_values :
    let a : Expression := .assignment ⟨['A'], "(B)(C)".toList, by decide, by decide⟩
    let d : Assignment := ⟨['D'], "= E".toList, by decide, by decide⟩
    let f : Expression := .assignment ⟨['F'], ['G'], by decide, by decide⟩
    let t : Text := "\tA = (B)(C) AND (D = = E OR F = G) ".toList
    let e : Expression := .operation .and [a, .operation .or [.assignment d, f]]
    (read {} t).result = .ok e ∧ ¬ Blank t ∧ e.Within (.assignment d) ∧ e ≠ .blank ∧
      ¬ Assignment.sign <:+: d.value ∧ d.render.count '(' = d.render.count ')' := by
  intro a d f t e
  have inner : combine .or [.assignment d, f] = .operation .or [.assignment d, f] :=
    combine_of_canonicalNode ⟨by decide, by simp [d, f], by decide, by decide⟩
  have outer : combine .and [a, .operation .or [.assignment d, f]] = e :=
    combine_of_canonicalNode ⟨by decide, by simp [a], by decide, by decide⟩
  have read : (read {} t).result = .ok e := by
    have plan : Plan.of t = .split (.segments .and 2) .and
      ["A = (B)(C)".toList, "(D = = E OR F = G)".toList] := rfl
    have parts :
        (Logged.each (readAt 64 64 1) ["A = (B)(C)".toList, "(D = = E OR F = G)".toList]).result =
      .ok [a, combine .or [.assignment d, f]] := rfl
    rw [read_result (by decide), readAt_split plan, parts, inner, ← outer]
    rfl
  have filled : ¬ Blank t := by decide
  have inside : e.Within (.assignment d) := .operand (.tail _ (.head _)) (.operand (.head _) (.self _))
  obtain ⟨-, nowhere, leaves⟩ := leaves_of_read read
  obtain ⟨hygiene, balanced, -⟩ := leaves d inside
  exact ⟨read, filled, inside, nowhere filled e (.self e), (hygiene d.value (.inr rfl)).2.1, balanced⟩

end Reading

end ChoiceLogic
