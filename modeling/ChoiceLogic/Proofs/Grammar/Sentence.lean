import ChoiceLogic.Expression.Combine
import ChoiceLogic.Proofs.Markup.Segments
import ChoiceLogic.Proofs.Text.Cut
import ChoiceLogic.Proofs.Text.Trim

/-! # The grammar of choice expressions

Sentences as they may be written, with blanks at every joint and with parentheses that are not needed,
and what they mean. A sentence is an operand, or several operands with one operator between them. An
operand is an assignment or a sentence in parentheses.
-/

namespace ChoiceLogic.Grammar

open Markup Text

/-- A text that is nothing but a family or a value, wherever it stands between two spaces. -/
structure Plain where
  text : Text
  trimmed : Trimmed text
  bare : Bare text
  noSign : Text.occurs Assignment.sign (spaced text) = false
  noOperator : ∀ op : Operator, Text.occurs op.separator (spaced text) = false

/-- Any blanks, or none. -/
structure Gap where
  text : Text
  blank : Blank text

mutual
inductive Operand where
  | leaf (family : Plain) (left right : Gap) (value : Plain)
  | group (left : Gap) (inner : Sentence) (right : Gap)

inductive Sentence where
  | operand (o : Operand)
  | chain (op : Operator) (first : Operand) (rest : Chain)

/-- The operands after the first one, each with the blanks around the operator before it. -/
inductive Chain where
  | last (left right : Gap) (o : Operand)
  | more (left right : Gap) (o : Operand) (rest : Chain)
end

mutual
def Operand.text : Operand → Text
  | .leaf family left right value =>
    family.text ++ left.text ++ Assignment.sign ++ right.text ++ value.text
  | .group left inner right => '(' :: (left.text ++ inner.text ++ right.text ++ [')'])

def Sentence.text : Sentence → Text
  | .operand o => o.text
  | .chain op first rest => first.text ++ rest.text op

def Chain.text (op : Operator) : Chain → Text
  | .last left right o => left.text ++ op.separator ++ right.text ++ o.text
  | .more left right o rest => left.text ++ op.separator ++ right.text ++ o.text ++ rest.text op
end

mutual
def Operand.meaning : Operand → Expression
  | .leaf family _ _ value =>
    .assignment ⟨family.text, value.text, family.trimmed, value.trimmed⟩
  | .group _ inner _ => inner.meaning

/-- What a sentence means, from the meanings of its operands in their order. -/
def Sentence.meaning : Sentence → Expression
  | .operand o => o.meaning
  | .chain op first rest => Expression.combine op (first.meaning :: rest.meanings)

def Chain.meanings : Chain → List Expression
  | .last _ _ o => [o.meaning]
  | .more _ _ o rest => o.meaning :: rest.meanings
end

mutual
/-- The operator is used somewhere in the operand. -/
def Operand.uses (op : Operator) : Operand → Bool
  | .leaf _ _ _ _ => false
  | .group _ inner _ => inner.uses op

def Sentence.uses (op : Operator) : Sentence → Bool
  | .operand o => o.uses op
  | .chain o first rest => o == op || first.uses op || rest.uses op

def Chain.uses (op : Operator) : Chain → Bool
  | .last _ _ o => o.uses op
  | .more _ _ o rest => o.uses op || rest.uses op
end

def Chain.operands : Chain → List Operand
  | .last _ _ o => [o]
  | .more _ _ o rest => o :: rest.operands

theorem Chain.meanings_eq (c : Chain) : c.meanings = c.operands.map Operand.meaning := by
  match c with
  | .last _ _ o => simp [meanings, operands]
  | .more _ _ o rest => simp [meanings, operands, meanings_eq rest]

theorem Chain.uses_iff {op : Operator} (c : Chain) : c.uses op ↔ ∃ o ∈ c.operands, o.uses op := by
  match c with
  | .last _ _ o => simp [uses, operands]
  | .more _ _ o rest => simp [uses, operands, uses_iff rest]

theorem Sentence.uses_chain_iff {op o : Operator} {first : Operand} {rest : Chain} :
    (Sentence.chain o first rest).uses op ↔ (∃ p ∈ first :: rest.operands, p.uses op) ∨ op = o := by
  simp only [uses, Bool.or_eq_true, beq_iff_eq, rest.uses_iff, List.mem_cons, exists_eq_or_imp]
  constructor
  · rintro ((rfl | h) | h)
    · exact .inr rfl
    · exact .inl (.inl h)
    · exact .inl (.inr h)
  · rintro ((h | h) | rfl)
    · exact .inl (.inr h)
    · exact .inr h
    · exact .inl (.inl rfl)

/-- A chain ends with an operator, a gap and an operand. -/
theorem Chain.text_eq_append (op : Operator) (c : Chain) :
    ∃ (before : Text) (gap : Gap), ∃ o ∈ c.operands,
      c.text op = before ++ op.separator ++ gap.text ++ o.text := by
  match c with
  | .last left right o => exact ⟨left.text, right, o, .head _, rfl⟩
  | .more left right o rest =>
      obtain ⟨before, gap, p, hp, text⟩ := text_eq_append op rest
      refine ⟨left.text ++ op.separator ++ right.text ++ o.text ++ before, gap, p, .tail _ hp, ?_⟩
      simp [Chain.text, text]

theorem Chain.length_text (op : Operator) (c : Chain) :
    4 ≤ (c.text op).length ∧ ∀ o ∈ c.operands, o.text.length + 4 ≤ (c.text op).length := by
  have separator : 4 ≤ op.separator.length := by cases op <;> decide
  match c with
  | .last left right o =>
      simp only [text, operands, List.length_append, List.mem_singleton, forall_eq]
      omega
  | .more left right o rest =>
      obtain ⟨long, each⟩ := length_text op rest
      simp only [text, operands, List.length_append, List.mem_cons, forall_eq_or_imp]
      refine ⟨by omega, by omega, fun p hp => ?_⟩
      have := each p hp
      omega

mutual
private theorem Operand.induction {motive : Sentence → Prop}
    (leaf : ∀ family left right value, motive (.operand (.leaf family left right value)))
    (group : ∀ left s right, motive s → motive (.operand (.group left s right)))
    (chain : ∀ op first rest, (∀ o ∈ first :: rest.operands, motive (.operand o)) →
      motive (.chain op first rest)) (o : Operand) : motive (.operand o) := by
  match o with
  | .leaf family left right value => exact leaf family left right value
  | .group left s right => exact group left s right (Sentence.induction leaf group chain s)

/-- Induction from the operands to the sentence. -/
theorem Sentence.induction {motive : Sentence → Prop}
    (leaf : ∀ family left right value, motive (.operand (.leaf family left right value)))
    (group : ∀ left s right, motive s → motive (.operand (.group left s right)))
    (chain : ∀ op first rest, (∀ o ∈ first :: rest.operands, motive (.operand o)) →
      motive (.chain op first rest)) (s : Sentence) : motive s := by
  match s with
  | .operand o => exact Operand.induction leaf group chain o
  | .chain op first rest =>
      refine chain op first rest fun o ho => ?_
      rcases List.mem_cons.mp ho with same | ho
      · exact same ▸ Operand.induction leaf group chain first
      · exact Chain.induction leaf group chain rest o ho

private theorem Chain.induction {motive : Sentence → Prop}
    (leaf : ∀ family left right value, motive (.operand (.leaf family left right value)))
    (group : ∀ left s right, motive s → motive (.operand (.group left s right)))
    (chain : ∀ op first rest, (∀ o ∈ first :: rest.operands, motive (.operand o)) →
      motive (.chain op first rest)) (c : Chain) : ∀ o ∈ c.operands, motive (.operand o) := by
  match c with
  | .last _ _ p =>
      intro o ho
      exact List.mem_singleton.mp ho ▸ Operand.induction leaf group chain p
  | .more _ _ p rest =>
      intro o ho
      rcases List.mem_cons.mp ho with same | ho
      · exact same ▸ Operand.induction leaf group chain p
      · exact Chain.induction leaf group chain rest o ho
end

/-! ## Gaps -/

namespace Gap

def none : Gap := ⟨[], by simp [Blank]⟩

def append (g h : Gap) : Gap :=
  ⟨g.text ++ h.text, fun c hc => (List.mem_append.mp hc).elim (g.blank c) (h.blank c)⟩

def afterSpace (g : Gap) : Gap :=
  ⟨' ' :: g.text, fun c hc => (List.mem_cons.mp hc).elim (fun same => same ▸ isBlank_space) (g.blank c)⟩

theorem bare (g : Gap) : Bare g.text := by
  intro c hc
  have blank := g.blank c hc
  constructor
  · rintro rfl
    cases (by decide : isBlank '(' = false).symm.trans blank
  · rintro rfl
    cases (by decide : isBlank ')' = false).symm.trans blank

end Gap

/-! ## Parts of a chain -/

/-- An operand with the blanks around it that belong to the joints. -/
structure Part where
  left : Gap
  operand : Operand
  right : Gap

def Part.text (p : Part) : Text :=
  p.left.text ++ p.operand.text ++ p.right.text

/-- The parts between the operators, when the first operand and the blanks at both ends are added. -/
def Chain.parts (left : Gap) (first : Operand) (right : Gap) : Chain → List Part
  | .last l r o => [⟨left, first, l⟩, ⟨r, o, right⟩]
  | .more l r o rest => ⟨left, first, l⟩ :: rest.parts r o right

theorem Chain.intercalate_parts (op : Operator) (left : Gap) (first : Operand) (right : Gap) (c : Chain) :
    left.text ++ (first.text ++ c.text op) ++ right.text =
      op.separator.intercalate ((c.parts left first right).map Part.text) := by
  match c with
  | .last l r o => simp [Chain.text, parts, Part.text, List.intercalate_cons_cons]
  | .more l r o rest =>
      have later := intercalate_parts op r o right rest
      obtain ⟨q, qs, some⟩ : ∃ q qs, rest.parts r o right = q :: qs := by
        cases rest <;> exact ⟨_, _, rfl⟩
      rw [parts, List.map_cons]
      rw [some, List.map_cons] at later ⊢
      rw [List.intercalate_cons_cons, ← later]
      simp [Chain.text, Part.text]

theorem Chain.map_operand_parts (left : Gap) (first : Operand) (right : Gap) (c : Chain) :
    (c.parts left first right).map Part.operand = first :: c.operands := by
  match c with
  | .last l r o => rfl
  | .more l r o rest => simp [parts, operands, map_operand_parts r o right rest]

theorem Chain.operand_mem {left right : Gap} {first : Operand} {c : Chain} {p : Part}
    (h : p ∈ c.parts left first right) : p.operand ∈ first :: c.operands := by
  rw [← c.map_operand_parts left first right]
  exact List.mem_map_of_mem h

theorem Chain.exists_parts (left : Gap) (first : Operand) (right : Gap) (c : Chain) :
    ∃ p q rest, c.parts left first right = p :: q :: rest := by
  match c with
  | .last l r o => exact ⟨_, _, _, rfl⟩
  | .more l r o (.last l' r' o') => exact ⟨_, _, _, rfl⟩
  | .more l r o (.more l' r' o' rest) => exact ⟨_, _, _, rfl⟩

end ChoiceLogic.Grammar
