import ChoiceLogic.Proofs.Markup.Segments
import ChoiceLogic.Proofs.Text.Cut
import ChoiceLogic.Proofs.Text.Trim
import ChoiceLogic.Reading.Plan

/-! # Which plan a text gets

The plan for a balanced piece depends on which operators are found in it: none, one of them, or both.
-/

namespace ChoiceLogic.Reading.Plan

open Markup Text

variable {t : Text} {op : Operator}

/-- Blanks around a piece do not change its plan. -/
theorem of_padded {g h : Text} (ht : Trimmed t) (hg : Blank g) (hh : Blank h)
    (sign : Assignment.sign <:+: t) : of (g ++ t ++ h) = ofPiece t := by
  have occurs : Text.occurs Assignment.sign (g ++ t ++ h) :=
    occurs_iff.mpr (sign.trans ⟨g, h, rfl⟩)
  simp only [of, ht.trim_padded hg hh, if_neg ht.ne_nil, occurs, if_true]

theorem of_trimmed (ht : Trimmed t) (sign : Assignment.sign <:+: t) : of t = ofPiece t := by
  simpa using of_padded (g := []) (h := []) ht (by simp [Blank]) (by simp [Blank]) sign

theorem of_blank (ht : Blank t) : of t = .settled (.ok .blank) := by
  simp [of, trim_blank ht]

theorem ofPiece_eq_single (balanced : Balanced t) (none : ∀ op, .mark (.operator op) ∉ Token.scan t) :
    ofPiece t = single t (Token.scan t) := by
  obtain ⟨noAnd, noOr⟩ := Operator.forall_iff.mp none
  simp [ofPiece, imbalance?_scan_eq_none_iff.mpr balanced, noAnd, noOr]

theorem ofPiece_eq_flat (balanced : Balanced t) (found : .mark (.operator op) ∈ Token.scan t)
    (only : ∀ o, o ≠ op → .mark (.operator o) ∉ Token.scan t) : ofPiece t = flat op t := by
  cases op with
  | and => simp [ofPiece, imbalance?_scan_eq_none_iff.mpr balanced, found, only .or]
  | or => simp [ofPiece, imbalance?_scan_eq_none_iff.mpr balanced, found, only .and]

theorem ofPiece_eq_layered (balanced : Balanced t)
    (both : ∀ op, .mark (.operator op) ∈ Token.scan t) : ofPiece t = layered t (Token.scan t) := by
  obtain ⟨hasAnd, hasOr⟩ := Operator.forall_iff.mp both
  simp [ofPiece, imbalance?_scan_eq_none_iff.mpr balanced, hasAnd, hasOr]

/-! ## The three kinds of pieces -/

theorem single_eq_unwrap {inner : Text} (balanced : Balanced inner) :
    single ('(' :: (inner ++ [')'])) (Token.scan ('(' :: (inner ++ [')']))) =
      .unwrap (.assignmentUnwrapped ('(' :: (inner ++ [')']))) inner := by
  simp only [single, group?_scan_enclosed balanced]

theorem single_eq_settled {family value : Text} {a : Assignment}
    (ungrouped : group? (Token.scan t) = none) (parts : Text.cut Assignment.sign t = [family, value])
    (made : Assignment.ofParts family value = .ok a) :
    single t (Token.scan t) = .settled (.ok (.assignment a)) := by
  simp only [single, ungrouped, parts, made]

theorem fragments_eq (op : Operator) (t : Text) :
    fragments op t = Text.cut op.separator (stripped t) := rfl

theorem flat_eq_split (parts : List Text) (cut : fragments op t = parts)
    (filled : ∀ p ∈ parts, ¬ Blank p) :
    flat op t = .split (.fragments op parts.eraseDups.length) op parts.eraseDups := by
  have none : parts.any (·.all Text.isBlank) = false := by
    simpa [Blank] using filled
  simp only [flat, cut, none, Bool.false_eq_true, if_false]

theorem layered_eq_unwrap {inner : Text} (balanced : Balanced inner) :
    layered ('(' :: (inner ++ [')'])) (Token.scan ('(' :: (inner ++ [')']))) =
      .unwrap (.groupUnwrapped ('(' :: (inner ++ [')']))) inner := by
  have whole := segments_of_closed (closed_enclosed balanced)
  simp only [layered, whole, group?_scan_enclosed balanced]

/-- Where all operators outside parentheses are the same, only an empty part can be at fault. -/
theorem layered_of_segments {first second : Text} {others : List Text}
    (found : segments (Token.scan t) = (first, (second :: others).map (op, ·))) :
    layered t (Token.scan t) =
      if ((first :: second :: others).map trim).any (·.isEmpty) then
        .settled (.error (.noOperand op t))
      else .split (.segments op (others.length + 2)) op ((first :: second :: others).map trim) := by
  have same : ((others.map (op, ·)).any fun s => s.1 ≠ op) = false := by simp
  have texts : (others.map fun p => (op, p)).map (·.2) = others := by
    rw [List.map_map]
    exact List.map_id _
  simp only [layered, found, List.map_cons, same, texts, Bool.false_eq_true, if_false, List.length_cons,
    List.length_map]

theorem layered_eq_split {first second : Text} {others : List Text}
    (found : segments (Token.scan t) = (first, (second :: others).map (op, ·)))
    (filled : ∀ p ∈ first :: second :: others, trim p ≠ []) :
    layered t (Token.scan t) = .split (.segments op (others.length + 2)) op
      ((first :: second :: others).map trim) := by
  have some : ¬ ((first :: second :: others).map trim).any (·.isEmpty) = true := by
    simpa using filled
  rw [layered_of_segments found, if_neg some]

/-! ## Back to the text -/

variable {remark : Remark} {inner : Text} {parts : List Text} {e : Expression} {a : Assignment}

theorem blank_of_trim_eq_nil (h : trim t = []) : Blank t := by
  obtain ⟨g, k, hg, hk, whole⟩ := padded_trim t
  rw [whole, h, List.append_nil]
  exact fun c hc => (List.mem_append.mp hc).elim (hg c) (hk c)

/-- Of the two operators, neither is found, or just one, or both. -/
theorem operator_cases (p : Operator → Prop) :
    (∀ op, ¬ p op) ∨ (∃ op, p op ∧ ∀ o, o ≠ op → ¬ p o) ∨ ∀ op, p op := by
  by_cases hasAnd : p .and
  · by_cases hasOr : p .or
    · exact .inr (.inr (Operator.forall_iff.mpr ⟨hasAnd, hasOr⟩))
    · exact .inr (.inl ⟨.and, hasAnd, Operator.forall_iff.mpr ⟨absurd rfl, fun _ => hasOr⟩⟩)
  · by_cases hasOr : p .or
    · exact .inr (.inl ⟨.or, hasOr, Operator.forall_iff.mpr ⟨fun _ => hasAnd, absurd rfl⟩⟩)
    · exact .inl (Operator.forall_iff.mpr ⟨hasAnd, hasOr⟩)

/-- A text that is neither blank nor at fault gets one of three plans. -/
theorem of_cases (t : Text) :
    (Blank t ∧ of t = .settled (.ok .blank)) ∨
    (∃ fault, of t = .settled (.error fault) ∧ fault.kind ≠ .limit) ∨
    (Assignment.sign <:+: t ∧ ¬ Blank t ∧ Balanced (trim t) ∧
      ((∀ op, .mark (.operator op) ∉ Token.scan (trim t)) ∧
          of t = single (trim t) (Token.scan (trim t)) ∨
        (∃ op, .mark (.operator op) ∈ Token.scan (trim t) ∧
          (∀ o, o ≠ op → .mark (.operator o) ∉ Token.scan (trim t)) ∧ of t = flat op (trim t)) ∨
        (∀ op, .mark (.operator op) ∈ Token.scan (trim t)) ∧
          of t = layered (trim t) (Token.scan (trim t)))) := by
  by_cases none : trim t = []
  · have blank := blank_of_trim_eq_nil none
    exact .inl ⟨blank, of_blank blank⟩
  · cases sign : occurs Assignment.sign t with
    | false =>
        refine .inr (.inl ⟨.noAssignment (trim t), ?_, nofun⟩)
        simp only [of, none, if_false, sign, Bool.false_eq_true]
    | true =>
        have piece : of t = ofPiece (trim t) := by simp only [of, none, if_false, sign, if_true]
        cases why : imbalance? (Token.scan (trim t)) with
        | some imbalance =>
            refine .inr (.inl ⟨.unbalanced imbalance, ?_, nofun⟩)
            simp only [piece, ofPiece, why]
        | none =>
            have balanced := imbalance?_scan_eq_none_iff.mp why
            have filled : ¬ Blank t := fun blank => none (trim_blank blank)
            refine .inr (.inr ⟨occurs_iff.mp sign, filled, balanced, ?_⟩)
            rw [piece]
            rcases operator_cases fun op => .mark (.operator op) ∈ Token.scan (trim t) with
              neither | ⟨op, found, only⟩ | both
            · exact .inl ⟨neither, ofPiece_eq_single balanced neither⟩
            · exact .inr (.inl ⟨op, found, only, ofPiece_eq_flat balanced found only⟩)
            · exact .inr (.inr ⟨both, ofPiece_eq_layered balanced both⟩)

theorem single_cases (t : Text) :
    (∃ fault, single t (Token.scan t) = .settled (.error fault) ∧ fault.kind ≠ .limit) ∨
    (∃ remark inner, group? (Token.scan t) = some inner ∧
      single t (Token.scan t) = .unwrap remark inner) ∨
    ∃ family value a, group? (Token.scan t) = none ∧ Text.cut Assignment.sign t = [family, value] ∧
      Assignment.ofParts family value = .ok a ∧
        single t (Token.scan t) = .settled (.ok (.assignment a)) := by
  cases grouped : group? (Token.scan t) with
  | some inner =>
      refine .inr (.inl ⟨.assignmentUnwrapped t, inner, rfl, ?_⟩)
      simp only [single, grouped]
  | none =>
      by_cases two : ∃ family value, Text.cut Assignment.sign t = [family, value]
      · obtain ⟨family, value, parts⟩ := two
        cases made : Assignment.ofParts family value with
        | error why =>
            refine .inl ⟨.emptyPart why t, ?_, nofun⟩
            simp only [single, grouped, parts, made]
        | ok a =>
            exact .inr (.inr ⟨family, value, a, rfl, parts, made,
              single_eq_settled grouped parts made⟩)
      · refine .inl ⟨.notOneAssignment t, ?_, nofun⟩
        unfold single
        simp only [grouped]
        split
        · next family value parts => exact absurd ⟨family, value, parts⟩ two
        · rfl

theorem flat_cases (op : Operator) (t : Text) :
    (∃ fault, flat op t = .settled (.error fault) ∧ fault.kind ≠ .limit) ∨
    (∀ p ∈ fragments op t, ¬ Blank p) ∧
      ∃ remark, flat op t = .split remark op (fragments op t).eraseDups := by
  by_cases filled : ∀ p ∈ fragments op t, ¬ Blank p
  · exact .inr ⟨filled, _, flat_eq_split _ rfl filled⟩
  · refine .inl ⟨.noOperand op t, ?_, nofun⟩
    have some : (fragments op t).any (·.all isBlank) = true := by
      simpa [Blank] using filled
    simp only [flat, some, if_true]

theorem layered_cases (t : Text) :
    (∃ fault, layered t (Token.scan t) = .settled (.error fault) ∧ fault.kind ≠ .limit) ∨
    (∃ remark inner, Closed t ∧ group? (Token.scan t) = some inner ∧
      layered t (Token.scan t) = .unwrap remark inner) ∨
    ∃ remark op first rest, segments (Token.scan t) = (first, rest.map (op, ·)) ∧ rest ≠ [] ∧
      (∀ p ∈ first :: rest, trim p ≠ []) ∧
        layered t (Token.scan t) = .split remark op ((first :: rest).map trim) := by
  obtain ⟨⟨first, items⟩, found⟩ : ∃ s, segments (Token.scan t) = s := ⟨_, rfl⟩
  cases items with
  | nil =>
      have closed : Closed t := congrArg Prod.snd found
      cases grouped : group? (Token.scan t) with
      | some inner =>
          refine .inr (.inl ⟨.groupUnwrapped t, inner, closed, rfl, ?_⟩)
          simp only [layered, found, grouped]
      | none =>
          refine .inl ⟨.noOuterOperator t, ?_, nofun⟩
          simp only [layered, found, grouped]
  | cons s others =>
      obtain ⟨op, second⟩ := s
      by_cases same : ∀ s ∈ others, s.1 = op
      · have uniform : (op, second) :: others = (second :: others.map (·.2)).map (op, ·) := by
          rw [List.map_cons, List.map_map]
          refine congrArg _ ((List.map_id _).symm.trans (List.map_congr_left fun s hs => ?_))
          exact Prod.ext (same s hs) rfl
        rw [uniform] at found
        cases empty : ((first :: second :: others.map (·.2)).map trim).any (·.isEmpty) with
        | true => exact .inl ⟨.noOperand op t, by rw [layered_of_segments found, if_pos empty], nofun⟩
        | false =>
            have filled : ∀ p ∈ first :: second :: others.map (·.2), trim p ≠ [] := by
              intro p hp none
              have := List.any_eq_false.mp empty (trim p) (List.mem_map_of_mem hp)
              simp [none] at this
            exact .inr (.inr ⟨_, op, first, _, found, List.cons_ne_nil _ _, filled,
              layered_eq_split found filled⟩)
      · refine .inl ⟨.mixedOperators t, ?_, nofun⟩
        have other : (others.any fun s => s.1 ≠ op) = true := by simpa using same
        simp only [layered, found, other, if_true]

end ChoiceLogic.Reading.Plan
