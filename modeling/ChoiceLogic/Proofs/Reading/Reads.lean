import ChoiceLogic.Proofs.Markup.Width
import ChoiceLogic.Proofs.Reading.Plan
import ChoiceLogic.Proofs.Reading.Steps

/-! # What a text is read as

The relation between a text and the expression that it is read as, whatever levels that takes. It has
one case for each way in which a piece can be taken apart, with all that is found out about the piece
on the way there.
-/

namespace ChoiceLogic.Reading

open Markup Text

/-- The pieces of a trimmed text between the operators at which it is cut, and the parts that are read
in their place. -/
inductive Cuts (t : Text) (op : Operator) : (pieces parts : List Text) → Prop where
  | flat (found : .mark (.operator op) ∈ Token.scan t)
      (only : ∀ o, o ≠ op → .mark (.operator o) ∉ Token.scan t)
      (filled : ∀ p ∈ Plan.fragments op t, ¬ Blank p) :
      Cuts t op (Plan.fragments op t) (Plan.fragments op t).eraseDups
  | layered {first : Text} {rest : List Text} (both : ∀ o, .mark (.operator o) ∈ Token.scan t)
      (found : segments (Token.scan t) = (first, rest.map (op, ·))) (more : rest ≠ [])
      (filled : ∀ p ∈ first :: rest, trim p ≠ []) :
      Cuts t op (first :: rest) ((first :: rest).map trim)

/-- What a plan says about the text that it is made for. -/
inductive Planned (t : Text) : Plan → Prop where
  /-- No piece is at fault for a limit. -/
  | fault {fault : Fault} (unlimited : fault.kind ≠ .limit) : Planned t (.settled (.error fault))
  | blank (h : Blank t) : Planned t (.settled (.ok .blank))
  | single {family value : Text} {a : Assignment} (sign : Assignment.sign <:+: t)
      (balanced : Balanced (trim t)) (noOperator : ∀ op, .mark (.operator op) ∉ Token.scan (trim t))
      (ungrouped : group? (Token.scan (trim t)) = none)
      (parts : cut Assignment.sign (trim t) = [family, value])
      (made : Assignment.ofParts family value = .ok a) : Planned t (.settled (.ok (.assignment a)))
  | group {remark : Remark} {inner : Text} (sign : Assignment.sign <:+: t)
      (grouped : group? (Token.scan (trim t)) = some inner) (closed : Closed (trim t)) :
      Planned t (.unwrap remark inner)
  | split {remark : Remark} {op : Operator} {pieces parts : List Text} (sign : Assignment.sign <:+: t)
      (balanced : Balanced (trim t)) (cuts : Cuts (trim t) op pieces parts) :
      Planned t (.split remark op parts)

theorem planned (t : Text) : Planned t (Plan.of t) := by
  rcases Plan.of_cases t with ⟨blank, plan⟩ | ⟨fault, plan, unlimited⟩ | ⟨sign, -, balanced, plans⟩
  · exact plan ▸ .blank blank
  · exact plan ▸ .fault unlimited
  · rcases plans with ⟨neither, plan⟩ | ⟨op, found, only, plan⟩ | ⟨both, plan⟩
    · rw [plan]
      rcases Plan.single_cases (trim t) with ⟨fault, made, unlimited⟩ | ⟨remark, inner, grouped, made⟩ |
        ⟨family, value, a, ungrouped, parts, ofParts, made⟩
      · exact made ▸ .fault unlimited
      · exact made ▸ .group sign grouped (closed_of_no_operator neither)
      · exact made ▸ .single sign balanced neither ungrouped parts ofParts
    · rw [plan]
      rcases Plan.flat_cases op (trim t) with ⟨fault, made, unlimited⟩ | ⟨filled, remark, made⟩
      · exact made ▸ .fault unlimited
      · exact made ▸ .split sign balanced (.flat found only filled)
    · rw [plan]
      rcases Plan.layered_cases (trim t) with ⟨fault, made, unlimited⟩ |
        ⟨remark, inner, closed, grouped, made⟩ | ⟨remark, op, first, rest, found, more, filled, made⟩
      · exact made ▸ .fault unlimited
      · exact made ▸ .group sign grouped closed
      · exact made ▸ .split sign balanced (.layered both found more filled)

inductive Reads : Text → Expression → Prop where
  | blank {t : Text} (h : Blank t) : Reads t .blank
  | single {t family value : Text} {a : Assignment} (sign : Assignment.sign <:+: t)
      (balanced : Balanced (trim t)) (noOperator : ∀ op, .mark (.operator op) ∉ Token.scan (trim t))
      (ungrouped : group? (Token.scan (trim t)) = none)
      (parts : cut Assignment.sign (trim t) = [family, value])
      (made : Assignment.ofParts family value = .ok a) : Reads t (.assignment a)
  | group {t inner : Text} {e : Expression} (sign : Assignment.sign <:+: t)
      (grouped : group? (Token.scan (trim t)) = some inner) (closed : Closed (trim t))
      (read : Reads inner e) : Reads t e
  | split {t : Text} {op : Operator} {pieces parts : List Text} {meaning : Text → Expression}
      (sign : Assignment.sign <:+: t) (balanced : Balanced (trim t))
      (cuts : Cuts (trim t) op pieces parts) (each : ∀ p ∈ parts, Reads p (meaning p)) :
      Reads t (Expression.combine op (parts.map meaning))

/-- The sign has a character that is not blank, and the parentheses around it do not have it. -/
theorem not_blank_of_group? {t inner : Text} (sign : Assignment.sign <:+: t)
    (grouped : group? (Token.scan (trim t)) = some inner) : ¬ Blank inner := by
  intro blank
  obtain ⟨g, h, hg, hh, whole⟩ := padded_trim t
  rw [eq_of_group? grouped] at whole
  have equals : '=' ∈ t := sign.subset (show '=' ∈ Assignment.sign by decide)
  have solid : ¬ isBlank '=' := by decide
  rw [whole] at equals
  simp only [List.mem_append, List.mem_cons, List.not_mem_nil, or_false] at equals
  rcases equals with (equals | equals | equals | equals) | equals
  · exact solid (hg _ equals)
  · cases equals
  · exact solid (blank _ equals)
  · cases equals
  · exact solid (hh _ equals)

/-- A blank text is read as nothing but the blank expression. -/
theorem Reads.eq_blank {t : Text} {e : Expression} (h : Reads t e) (blank : Blank t) : e = .blank := by
  have noSign : ¬ Assignment.sign <:+: t := by
    intro sign
    exact absurd (blank '=' (sign.subset (by decide))) (by decide)
  cases h with
  | blank => rfl
  | single sign | group sign | split sign => exact absurd sign noSign

/-- When all parts are read, there is one meaning for every text among them. -/
theorem exists_meaning {f : Text → Logged Expression} {parts : List Text} {es : List Expression}
    (h : (Logged.each f parts).result = .ok es) :
    ∃ meaning : Text → Expression, (∀ p ∈ parts, (f p).result = .ok (meaning p)) ∧
      es = parts.map meaning := by
  let meaning (p : Text) : Expression := (f p).result.toOption.getD .blank
  have each (p : Text) (hp : p ∈ parts) : (f p).result = .ok (meaning p) := by
    obtain ⟨e, he⟩ := ok_of_each_result h p hp
    simp only [meaning, he, Except.toOption, Option.getD_some]
  refine ⟨meaning, each, ?_⟩
  rw [each_result_of_ok meaning each] at h
  exact (Except.ok.inj h).symm

/-- A text that is split is read only if its parts are, one level deeper. -/
theorem exists_meaning_of_split {maxDepth levels depth : Nat} {t : Text} {remark : Remark}
    {op : Operator} {parts : List Text} {e : Expression} (plan : Plan.of t = .split remark op parts)
    (read : (readAt maxDepth (levels + 1) depth t).result = .ok e) :
    ∃ meaning : Text → Expression,
      (∀ p ∈ parts, (readAt maxDepth levels (depth + 1) p).result = .ok (meaning p)) ∧
      e = Expression.combine op (parts.map meaning) := by
  rw [readAt_split plan] at read
  cases parsed : (Logged.each (readAt maxDepth levels (depth + 1)) parts).result with
  | error fault => simp [parsed, Except.map] at read
  | ok es =>
      obtain ⟨meaning, each, rfl⟩ := exists_meaning parsed
      rw [parsed] at read
      exact ⟨meaning, each, (Except.ok.inj read).symm⟩

theorem reads_of_readAt {maxDepth levels depth : Nat} {t : Text} {e : Expression}
    (read : (readAt maxDepth levels depth t).result = .ok e) : Reads t e := by
  induction levels generalizing depth t e with
  | zero => simp [readAt, Logged.fail] at read
  | succ levels ih =>
      have shape := planned t
      cases plan : Plan.of t with
      | settled result =>
          rw [plan] at shape
          rw [readAt_settled plan] at read
          subst read
          cases shape with
          | blank blank => exact .blank blank
          | single sign balanced noOperator ungrouped parts made =>
              exact .single sign balanced noOperator ungrouped parts made
      | unwrap remark inner =>
          rw [plan] at shape
          rw [readAt_unwrap plan] at read
          cases shape with
          | group sign grouped closed => exact .group sign grouped closed (ih read)
      | split remark op parts =>
          rw [plan] at shape
          cases shape with
          | split sign balanced cuts =>
              obtain ⟨meaning, each, rfl⟩ := exists_meaning_of_split plan read
              exact .split sign balanced cuts fun p hp => ih (each p hp)

end ChoiceLogic.Reading
