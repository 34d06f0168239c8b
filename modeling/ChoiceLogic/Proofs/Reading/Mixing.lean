import ChoiceLogic.Proofs.Markup.Pairs
import ChoiceLogic.Proofs.Reading.Burden
import ChoiceLogic.Proofs.Reading.Levels

/-! # Operators on one level

Two operators inside the same pairs of parentheses are the same operator in every text that is read,
unless one of them stands at the border of its group. There it loses a space when the text inside the
group is trimmed, and is taken for a part of the operand beside it.
-/

namespace ChoiceLogic.Reading

open Markup Text Expression

variable {op o p : Operator} {t : Text} {e : Expression} {i j : Nat}

theorem Reads.balanced (h : Reads t e) : Balanced (trim t) := by
  induction h with
  | blank blank => exact trim_blank blank ▸ rfl
  | single _ balanced => exact balanced
  | group _ grouped _ _ ih =>
      rw [eq_of_group? grouped]
      exact (balanced_trim_iff.mp ih).enclosed
  | split _ balanced => exact balanced

/-- The word of an operator alone is not read. -/
theorem not_reads_name (n : Operator) : ¬ Reads n.name e := by
  have filled : ¬ Blank n.name := by cases n <;> decide
  intro h
  cases h with
  | blank blank => exact filled blank
  | single sign | group sign | split sign => exact not_sign_inside_name n sign

theorem Reads.uncarried (h : Reads t e) : Uncarried (trim t) := by
  intro n op z whole
  have found : .mark (.operator op) ∈ Token.scan (trim t) :=
    whole ▸ operator_mem_scan_name_append n op z
  cases h with
  | blank blank => simp [trim_blank blank, Token.scan_nil] at found
  | single _ _ noOperator => exact noOperator op found
  | group _ grouped =>
      rw [eq_of_group? grouped] at whole
      cases n <;> simp [Operator.name] at whole
  | split _ _ cuts each =>
      refine not_reads_name n (each n.name ?_)
      cases cuts with
      | flat _ only =>
          obtain rfl := Token.eq_of_only only found
          exact List.mem_eraseDups.mpr (whole ▸ name_mem_fragments n op z)
      | layered _ segs =>
          rw [whole, segments_name_append] at segs
          obtain rfl := congrArg Prod.fst segs
          exact List.mem_map.mpr ⟨n.name, .head _, by cases n <;> rfl⟩

/-- Operators between which all parentheses are balanced are the same, unless there are only blanks
between one of them and a parenthesis around both. -/
def Agree (t : Text) : Prop :=
  ∀ u o m p v, BothFound t u o m p v → Balanced m → ¬ BehindOpening u → ¬ BeforeClosing v → o = p

/-- Trimming hides no operator but at the ends of a text. -/
theorem Agree.of_trim {u m v : Text} (agree : Agree (trim t))
    (alone : Uncarried (trim t)) (found : BothFound t u o m p v) (between : Balanced m)
    (before : ¬ Blank u) (behind : ¬ Blank v) (left : ¬ BehindOpening u) (right : ¬ BeforeClosing v) :
    o = p := by
  obtain ⟨g, u, v, k, rfl, rfl, inside⟩ := found.inside_trim before behind alone
  exact agree u o m p v inside between (fun border => left (border.append g))
    fun border => right (border.append k)

theorem agree_of_segments {first : Text} {rest : List Text} (balanced : Balanced t)
    (segs : segments (Token.scan t) = (first, rest.map (op, ·)))
    (each : ∀ q ∈ first :: rest, Agree (trim q) ∧ Uncarried (trim q)) : Agree t := by
  intro u o m p v found between left right
  by_cases top : Balanced u
  · -- Both stand outside all parentheses, where the text is cut.
    have cut (o : Operator) (h : o ∈ (segments (Token.scan t)).2.map (·.1)) : o = op := by
      rw [segs] at h
      obtain ⟨s, hs, rfl⟩ := List.mem_map.mp h
      obtain ⟨q, -, rfl⟩ := List.mem_map.mp hs
      rfl
    have first := found.first.operator_mem_segments found.whole top
    have reach : t = u ++ (o.separator ++ m) ++ (p.separator ++ v) := by
      simpa only [List.append_assoc] using found.whole
    have second := (found.first.trans found.second).operator_mem_segments reach
      (top.append ((balanced_separator o).append between))
    exact (cut o first).trans (cut p second).symm
  · obtain ⟨q, hq, x, u, v, y, rfl, rfl, inside, closed, deep⟩ :=
      found.inside_segment between top balanced segs
    have texts : (rest.map (op, ·)).map (·.2) = rest := by
      rw [List.map_map]
      exact List.map_id rest
    obtain ⟨agree, alone⟩ := each q (texts ▸ hq)
    refine agree.of_trim alone inside between ?_ ?_ ?_ ?_
    · exact fun blank => deep (balanced_of_bare (bare_of_blank blank))
    · -- Behind the operators, the pairs that are open before them are closed.
      intro blank
      have rest : Balanced (o.separator ++ (m ++ (p.separator ++ v))) := (balanced_separator o).append
        (between.append ((balanced_separator p).append (balanced_of_bare (bare_of_blank blank))))
      exact deep (Balanced.of_append (inside.whole ▸ closed) rest)
    · exact fun border => left (border.append x)
    · exact fun border => right (border.append y)

theorem Reads.agree (h : Reads t e) : Agree (trim t) := by
  induction h with
  | blank blank =>
      intro u o m p v found
      have mem := found.first.mem
      simp [trim_blank blank, Token.scan_nil] at mem
  | single _ _ noOperator =>
      intro u o m p v found
      exact absurd found.first.mem (noOperator o)
  | group _ grouped _ read ih =>
      intro u o m p v found between left right
      rw [eq_of_group? grouped] at found
      obtain ⟨u, v, rfl, rfl, inside⟩ := found.inside_group
      refine ih.of_trim read.uncarried inside between ?_ ?_ ?_ ?_
      · exact fun blank => left (behindOpening_of_blank blank)
      · exact fun blank => right (beforeClosing_of_blank blank)
      · exact fun border => left (border.append ['('])
      · exact fun border => right (border.append [')'])
  | split _ balanced cuts each ih =>
      cases cuts with
      | flat _ only =>
          intro u o m p v found
          have first := Token.eq_of_only only found.first.mem
          have second := Token.eq_of_only only (found.first.trans found.second).mem
          exact fun _ _ _ => first.trans second.symm
      | layered _ segs =>
          refine agree_of_segments balanced segs fun q hq => ?_
          have agree := ih _ (List.mem_map_of_mem hq)
          have alone := (each _ (List.mem_map_of_mem hq)).uncarried
          rw [trim_trim] at agree alone
          exact ⟨agree, alone⟩

/-! ## Places -/

theorem Reads.operator_eq_of_lt (h : Reads t e) (before : i < j)
    (hi : (Token.scan (trim t))[i]? = some (.mark (.operator o)))
    (hj : (Token.scan (trim t))[j]? = some (.mark (.operator p)))
    (same : pairsAround (Token.scan (trim t)) i = pairsAround (Token.scan (trim t)) j)
    (first : ¬ AtBorder (Token.scan (trim t)) i) (second : ¬ AtBorder (Token.scan (trim t)) j) :
    o = p := by
  obtain ⟨u, m, v, found, between, left, right⟩ := exists_bothFound h.balanced before hi hj same
  refine h.agree u o m p v found between (fun border => first (.inl ?_)) fun border => second (.inr ?_)
  · rwa [left, Token.flatMap_text_scan]
  · rwa [right, Token.flatMap_text_scan]

/-- In a text that is read, two operators inside the same pairs are the same, if neither stands at the
border of its group. -/
theorem operator_eq_of_pairsAround_eq {limits : Limits} (h : (read limits t).result = .ok e)
    (hi : (Token.scan (trim t))[i]? = some (.mark (.operator o)))
    (hj : (Token.scan (trim t))[j]? = some (.mark (.operator p)))
    (same : pairsAround (Token.scan (trim t)) i = pairsAround (Token.scan (trim t)) j)
    (first : ¬ AtBorder (Token.scan (trim t)) i) (second : ¬ AtBorder (Token.scan (trim t)) j) :
    o = p := by
  have reads := reads_of_readAt (readAt_of_read h)
  rcases Nat.lt_trichotomy i j with before | rfl | behind
  · exact reads.operator_eq_of_lt before hi hj same first second
  · rw [hi] at hj
    exact Mark.operator.inj (Token.mark.inj (Option.some.inj hj))
  · exact (reads.operator_eq_of_lt behind hj hi same.symm second first).symm

/-- Between the two operators of a group there is another group, with another operator. -/
theorem operator_eq_of_pairsAround_eq_nested :
    let a : Expression := .assignment ⟨['A'], ['B'], by decide, by decide⟩
    let c : Expression := .assignment ⟨['C'], ['D'], by decide, by decide⟩
    let e : Expression := .assignment ⟨['E'], ['F'], by decide, by decide⟩
    let g : Expression := .assignment ⟨['G'], ['H'], by decide, by decide⟩
    let i : Expression := .assignment ⟨['I'], ['J'], by decide, by decide⟩
    let t : Text := " (A = B AND (C = D OR E = F) AND G = H) OR I = J".toList
    let ts := Token.scan (trim t)
    (read {} t).result = .ok (combine .or [combine .and [a, combine .or [c, e], g], i]) ∧
      ts[2]? = some (.mark (.operator .and)) ∧ ts[8]? = some (.mark (.operator .and)) ∧
      pairsAround ts 2 = pairsAround ts 8 ∧ ¬ AtBorder ts 2 ∧ ¬ AtBorder ts 8 ∧
      Operator.and = .and := by
  intro a c e g i t ts
  have read : (read {} t).result = .ok (combine .or [combine .and [a, combine .or [c, e], g], i]) := by
    have plan : Plan.of t = .split (.segments .or 2) .or
      ["(A = B AND (C = D OR E = F) AND G = H)".toList, "I = J".toList] := rfl
    have parts : (Logged.each (readAt 64 64 1)
      ["(A = B AND (C = D OR E = F) AND G = H)".toList, "I = J".toList]).result =
        .ok [combine .and [a, combine .or [c, e], g], i] := rfl
    rw [read_result (by decide), readAt_split plan, parts]
    rfl
  have first : ts[2]? = some (.mark (.operator .and)) := by decide
  have second : ts[8]? = some (.mark (.operator .and)) := by decide
  have same : pairsAround ts 2 = pairsAround ts 8 := by decide
  have inside : ¬ AtBorder ts 2 := by decide
  have inside' : ¬ AtBorder ts 8 := by decide
  exact ⟨read, first, second, same, inside, inside',
    operator_eq_of_pairsAround_eq read first second same inside inside'⟩

/-- An operator at the border of its group is taken for a part of a family, and the other operator of the
group is another one. -/
theorem mixed_operators_read :
    let a : Expression := .assignment ⟨"OR A".toList, ['B'], by decide, by decide⟩
    let c : Expression := .assignment ⟨['C'], ['D'], by decide, by decide⟩
    let t : Text := "( OR A = B AND C = D)".toList
    let ts := Token.scan (trim t)
    (read {} t).result = .ok (combine .and [a, c]) ∧ ts[1]? = some (.mark (.operator .or)) ∧
      ts[3]? = some (.mark (.operator .and)) ∧ pairsAround ts 1 = pairsAround ts 3 ∧
      Operator.or ≠ .and := by
  intro a c t ts
  have whole : Plan.of t = .unwrap (.groupUnwrapped t) " OR A = B AND C = D".toList := rfl
  have inner : Plan.of " OR A = B AND C = D".toList =
    .split (.fragments .and 2) .and ["OR A = B".toList, "C = D".toList] := rfl
  have parts :
      (Logged.each (readAt 64 63 2) ["OR A = B".toList, "C = D".toList]).result = .ok [a, c] := rfl
  refine ⟨?_, by decide, by decide, by decide, by decide⟩
  rw [read_result (by decide), readAt_unwrap whole, readAt_split inner, parts]
  rfl

end ChoiceLogic.Reading
