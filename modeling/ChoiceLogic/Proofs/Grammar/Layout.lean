import ChoiceLogic.Proofs.Combine.Flattening
import ChoiceLogic.Proofs.Grammar.Sentence
import ChoiceLogic.Proofs.Reading.Plan

/-! # The layout of sentences

What the marks and the parentheses of a sentence are, whatever blanks stand around it. No operator or
sign comes up at a joint that is not in the sentence, because families and values are plain even
between spaces.
-/

namespace ChoiceLogic.Grammar

open Markup Text Reading

/-! ## Assignments -/

namespace Plain

variable (a : Plain)

theorem absent_sign : Absent ['='] a.text :=
  occurs_eq_false_iff.mp a.noSign

theorem absent_operator (op : Operator) : Absent op.name a.text := by
  have nowhere := occurs_eq_false_iff.mp (a.noOperator op)
  rwa [op.separator_eq_spaced] at nowhere

end Plain

/-- An assignment with the blanks around it and inside it. -/
structure Leaf where
  before : Gap
  family : Plain
  left : Gap
  right : Gap
  value : Plain
  behind : Gap

namespace Leaf

def operand (a : Leaf) : Operand :=
  .leaf a.family a.left a.right a.value

def text (a : Leaf) : Text :=
  a.before.text ++ a.operand.text ++ a.behind.text

variable (a : Leaf)

theorem absent_operator (op : Operator) : Absent op.name a.text := by
  have word := op.isWord_name
  have equals : Absent op.name ['='] := by
    apply occurs_eq_false_iff.mp
    cases op <;> decide
  have leftBlank : ∀ c ∈ a.left.text ++ [' '], isBlank c := by
    intro c hc
    rcases List.mem_append.mp hc with hc | hc
    · exact a.left.blank c hc
    · exact List.mem_singleton.mp hc ▸ isBlank_space
  have first := Absent.append word (a.family.absent_operator op) leftBlank (by simp) equals
  have whole := Absent.append word first a.right.afterSpace.blank (by simp [Gap.afterSpace])
    (a.value.absent_operator op)
  have shape : a.operand.text = a.family.text ++ (a.left.text ++ [' ']) ++ ['='] ++
      a.right.afterSpace.text ++ a.value.text := by
    simp [operand, Operand.text, Assignment.sign, Gap.afterSpace]
  rw [text, shape]
  exact whole.padded word a.before.blank a.behind.blank

theorem not_endsInOperator : ¬ EndsInOperator a.text := by
  rintro ⟨op, ends⟩
  exact (a.absent_operator op).not_endsIn ends

theorem mark_notMem (op : Operator) : .mark (.operator op) ∉ Token.scan a.text := by
  intro mem
  have inside := Token.infix_of_mark_mem_scan mem
  simp only [Mark.text, op.separator_eq_spaced] at inside
  exact (a.absent_operator op).not_inside inside

theorem bare : Bare a.text := by
  have sign : Bare Assignment.sign := by decide
  intro c hc
  simp only [text, operand, Operand.text, List.mem_append] at hc
  rcases hc with (hc | (((hc | hc) | hc) | hc) | hc) | hc
  · exact a.before.bare c hc
  · exact a.family.bare c hc
  · exact a.left.bare c hc
  · exact sign c hc
  · exact a.right.bare c hc
  · exact a.value.bare c hc
  · exact a.behind.bare c hc

theorem trimmed_operand : Trimmed a.operand.text := by
  have ends := a.family.trimmed.append a.value.trimmed
    (a.left.text ++ Assignment.sign ++ a.right.text)
  simpa [operand, Operand.text] using ends

theorem sign_inside : Assignment.sign <:+: a.operand.text :=
  ⟨a.family.text ++ a.left.text, a.right.text ++ a.value.text, by simp [operand, Operand.text]⟩

theorem cut_operand : Text.cut Assignment.sign a.operand.text =
    [a.family.text ++ a.left.text, a.right.text ++ a.value.text] := by
  have word := Assignment.isWord_sign
  have family : Absent ['='] (a.family.text ++ a.left.text) := by
    simpa using a.family.absent_sign.padded (g := []) word (by simp) a.left.blank
  have value : Absent ['='] (a.right.text ++ a.value.text) := by
    simpa using a.value.absent_sign.padded (h := []) word a.right.blank (by simp)
  have shape : a.operand.text = (a.family.text ++ a.left.text) ++ spaced ['='] ++
      (a.right.text ++ a.value.text) := by
    simp [operand, Operand.text, Assignment.sign_eq]
  rw [shape, Assignment.sign_eq, cut_append_spaced word family.not_endsIn,
    cut_of_not_inside family.not_inside, cut_of_not_inside value.not_inside]
  rfl

/-- An assignment is read as what it means, whatever blanks it has. -/
theorem plan : Plan.of a.text = .settled (.ok a.operand.meaning) := by
  let inner : Leaf := { a with before := Gap.none, behind := Gap.none }
  have same : inner.text = a.operand.text := by simp [text, inner, Gap.none, operand]
  have bare := same ▸ inner.bare
  have ungrouped : group? (Token.scan a.operand.text) = none := by
    cases grouped : group? (Token.scan a.operand.text) with
    | none => rfl
    | some enclosed =>
        rw [eq_of_group? grouped] at bare
        exact absurd rfl (bare '(' (.head _)).1
  have family : Text.trim (a.family.text ++ a.left.text) = a.family.text := by
    simpa using a.family.trimmed.trim_padded (g := []) (by simp [Blank]) a.left.blank
  have value : Text.trim (a.right.text ++ a.value.text) = a.value.text := by
    simpa using a.value.trimmed.trim_padded (h := []) a.right.blank (by simp [Blank])
  have made : Assignment.ofParts (a.family.text ++ a.left.text) (a.right.text ++ a.value.text) =
      .ok ⟨a.family.text, a.value.text, a.family.trimmed, a.value.trimmed⟩ := by
    simp [Assignment.ofParts, family, value, a.family.trimmed.1, a.value.trimmed.1]
  rw [text, Plan.of_padded a.trimmed_operand a.before.blank a.behind.blank a.sign_inside,
    Plan.ofPiece_eq_single (balanced_of_bare bare) (same ▸ inner.mark_notMem),
    Plan.single_eq_settled ungrouped a.cut_operand made]
  rfl

end Leaf

/-! ## Ends -/

theorem Operand.not_endsInOperator (o : Operand) (g h : Gap) :
    ¬ EndsInOperator (g.text ++ o.text ++ h.text) := by
  cases o with
  | leaf family left right value => exact (Leaf.mk g family left right value h).not_endsInOperator
  | group left s right =>
      intro ends
      rcases List.eq_nil_or_concat h.text with none | ⟨most, c, some⟩
      · have last : ')' = 'D' ∨ ')' = 'R' := by
          refine last_of_endsInOperator
            (u := g.text ++ '(' :: (left.text ++ s.text ++ right.text)) ?_
          simpa [none, Operand.text] using ends
        simp at last
      · have blank := h.blank c (by simp [some])
        rw [some, List.concat_eq_append, ← List.append_assoc] at ends
        rcases last_of_endsInOperator ends with rfl | rfl
        · cases (by decide : isBlank 'D' = false).symm.trans blank
        · cases (by decide : isBlank 'R' = false).symm.trans blank

theorem Chain.parts_apart {left right : Gap} {first : Operand} {c : Chain} :
    ∀ p ∈ ((c.parts left first right).map Part.text).dropLast, ¬ EndsInOperator p := by
  intro p hp
  obtain ⟨part, -, rfl⟩ := List.mem_map.mp ((List.dropLast_sublist _).mem hp)
  exact part.operand.not_endsInOperator part.left part.right

/-! ## Marks and parentheses of sentences -/

namespace Sentence

theorem trimmed (s : Sentence) : Trimmed s.text := by
  induction s using Sentence.induction with
  | leaf family left right value =>
      exact (Leaf.mk Gap.none family left right value Gap.none).trimmed_operand
  | group left s right ih =>
      have ends := trimmed_enclosed (left.text ++ s.text ++ right.text)
      simpa [text, Operand.text] using ends
  | chain op first rest ih =>
      obtain ⟨before, gap, o, ho, eq⟩ := rest.text_eq_append op
      have ends := (ih first (.head _)).append (ih o (.tail _ ho))
        (before ++ op.separator ++ gap.text)
      simpa [text, eq] using ends

theorem sign_inside (s : Sentence) : Assignment.sign <:+: s.text := by
  induction s using Sentence.induction with
  | leaf family left right value =>
      exact (Leaf.mk Gap.none family left right value Gap.none).sign_inside
  | group left s right ih =>
      exact ih.trans ⟨'(' :: left.text, right.text ++ [')'], by simp [text, Operand.text]⟩
  | chain op first rest ih =>
      exact (ih first (.head _)).trans ⟨[], rest.text op, by simp [text]⟩

theorem balanced_padded {t : Text} (g h : Gap) (balanced : Balanced t) :
    Balanced (g.text ++ t ++ h.text) :=
  ((balanced_of_bare g.bare).append balanced).append (balanced_of_bare h.bare)

theorem balanced (s : Sentence) : Balanced s.text := by
  induction s using Sentence.induction with
  | leaf family left right value =>
      have bare := (Leaf.mk Gap.none family left right value Gap.none).bare
      exact balanced_of_bare (by simpa [Leaf.text, Gap.none, text, Leaf.operand] using bare)
  | group left s right ih =>
      have enclosed := (balanced_padded left right ih).enclosed
      simpa [text, Operand.text] using enclosed
  | chain op first rest ih =>
      have joined := rest.intercalate_parts op Gap.none first Gap.none
      simp only [Gap.none, List.nil_append, List.append_nil] at joined
      rw [text, joined]
      refine Balanced.intercalate op fun p hp => ?_
      obtain ⟨part, hpart, rfl⟩ := List.mem_map.mp hp
      exact balanced_padded part.left part.right (ih part.operand (rest.operand_mem hpart))

theorem mark_notMem_gap (g : Gap) (op : Operator) : .mark (.operator op) ∉ Token.scan g.text := by
  intro mem
  have inside := Token.infix_of_mark_mem_scan mem
  have word := (absent_nil op.isWord_name).padded op.isWord_name g.blank g.blank
  simp only [Mark.text, op.separator_eq_spaced] at inside
  refine word.not_inside (inside.trans ?_)
  exact ⟨[], g.text, by simp⟩

/-- The operators that are found in a sentence are those that are used in it. -/
theorem operator_mem_scan_iff (s : Sentence) (op : Operator) : ∀ g h : Gap,
    .mark (.operator op) ∈ Token.scan (g.text ++ s.text ++ h.text) ↔ s.uses op := by
  induction s using Sentence.induction with
  | leaf family left right value =>
      intro g h
      have none := (Leaf.mk g family left right value h).mark_notMem op
      constructor
      · intro mem
        exact absurd mem none
      · intro used
        cases used
  | group left s right ih =>
      intro g h
      have shape : g.text ++ (Sentence.operand (.group left s right)).text ++ h.text =
          g.text ++ (Mark.opening.text ++
            (left.text ++ s.text ++ right.text ++ (Mark.closing.text ++ h.text))) := by
        simp [text, Operand.text, Mark.text]
      have before := mark_notMem_gap g op
      have behind := mark_notMem_gap h op
      rw [shape, Token.scan_append .opening trivial, Token.scan_append .closing trivial]
      simp only [List.mem_append, List.mem_cons, Token.mark.injEq, reduceCtorEq, before, behind,
        ih left right, false_or, or_false, uses, Operand.uses]
  | chain o first rest ih =>
      intro g h
      let parts := rest.parts g first h
      have long : 2 ≤ (parts.map Part.text).length := by
        obtain ⟨p, q, others, some⟩ := rest.exists_parts g first h
        simp [parts, some]
      have nonempty : parts.map Part.text ≠ [] := by
        intro none
        simp [none] at long
      rw [text, rest.intercalate_parts o g first h, mark_mem_scan_intercalate nonempty rest.parts_apart,
        uses_chain_iff]
      refine or_congr ?_ (by simp only [long, true_and, Mark.operator.injEq])
      rw [← rest.map_operand_parts g first h]
      constructor
      · rintro ⟨t, ht, mem⟩
        obtain ⟨p, hp, rfl⟩ := List.mem_map.mp ht
        exact ⟨_, List.mem_map_of_mem hp, (ih p.operand (rest.operand_mem hp) p.left p.right).mp mem⟩
      · rintro ⟨o, ho, used⟩
        obtain ⟨p, hp, rfl⟩ := List.mem_map.mp ho
        exact ⟨_, List.mem_map_of_mem hp, (ih p.operand (rest.operand_mem hp) p.left p.right).mpr used⟩

theorem canonical (s : Sentence) : s.meaning.Canonical := by
  induction s using Sentence.induction with
  | leaf family left right value => exact .assignment _
  | group left s right ih => exact ih
  | chain op first rest ih =>
      refine Expression.Canonical.combine fun e he => ?_
      rw [rest.meanings_eq, ← List.map_cons] at he
      obtain ⟨o, ho, rfl⟩ := List.mem_map.mp he
      exact ih o ho

end Sentence

theorem Operand.closed (o : Operand) (g h : Gap) : Closed (g.text ++ o.text ++ h.text) := by
  cases o with
  | leaf family left right value =>
      exact closed_of_no_operator (Leaf.mk g family left right value h).mark_notMem
  | group left s right =>
      have shape : g.text ++ (Operand.group left s right).text ++ h.text =
          g.text ++ '(' :: ((left.text ++ s.text ++ right.text) ++ ')' :: h.text) := by
        simp [text]
      rw [shape]
      exact closed_append_enclosed (balanced_of_bare g.bare)
        (closed_of_no_operator (Sentence.mark_notMem_gap g))
        (Sentence.balanced_padded left right s.balanced)
        (closed_of_no_operator (Sentence.mark_notMem_gap h))

theorem Operand.trimmed (o : Operand) : Trimmed o.text :=
  (Sentence.operand o).trimmed

theorem Operand.balanced (o : Operand) : Balanced o.text :=
  (Sentence.operand o).balanced

/-! ## Sentences without their parentheses -/

namespace Sentence

/-- Dropping the parentheses of a group leaves the sentence in it, with more blanks around it. -/
theorem stripped_group (g h left right : Gap) (s : Sentence) :
    stripped (g.text ++ (Sentence.operand (.group left s right)).text ++ h.text) =
      stripped ((g.append left).text ++ s.text ++ (right.append h).text) := by
  simp [stripped, text, Operand.text, Gap.append]

theorem stripped_leaf (g h left right : Gap) (family value : Plain) :
    stripped (g.text ++ (Sentence.operand (.leaf family left right value)).text ++ h.text) =
      (Leaf.mk g family left right value h).text :=
  stripped_of_bare (Leaf.mk g family left right value h).bare

theorem not_endsInOperator_stripped (s : Sentence) : ∀ g h : Gap,
    ¬ EndsInOperator (stripped (g.text ++ s.text ++ h.text)) := by
  induction s using Sentence.induction with
  | leaf family left right value =>
      intro g h
      rw [stripped_leaf]
      exact Leaf.not_endsInOperator _
  | group left s right ih =>
      intro g h
      rw [stripped_group]
      exact ih (g.append left) (right.append h)
  | chain op first rest ih =>
      rintro g h ⟨o, ends⟩
      obtain ⟨before, gap, last, hlast, eq⟩ := rest.text_eq_append op
      -- What the chain ends in stands behind the space of its last operator.
      have shape : stripped (g.text ++ (Sentence.chain op first rest).text ++ h.text) =
          stripped (g.text ++ first.text ++ before) ++ ' ' :: op.name ++
            ' ' :: stripped (gap.text ++ last.text ++ h.text) := by
        have separator := stripped_of_bare (bare_separator op)
        simp only [text, eq, stripped_append, separator]
        simp [op.separator_eq]
      rw [shape] at ends
      refine ih last (.tail _ hlast) gap.afterSpace h ⟨o, ?_⟩
      have spaced := EndsIn.of_append_blank o.isWord_name isBlank_space ends
      simpa [Gap.afterSpace, stripped, text] using spaced

end Sentence

end ChoiceLogic.Grammar
