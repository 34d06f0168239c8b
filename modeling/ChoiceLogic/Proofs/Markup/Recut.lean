import ChoiceLogic.Proofs.Combine.Total
import ChoiceLogic.Proofs.Markup.Segments
import ChoiceLogic.Proofs.Text.Cut
import Mathlib.Data.List.Chain

/-! # Cuts at the wrong place

An operator behind a text that ends in the word of one shares its first space with that word. Such a
text is cut at its own last word, and what is left of the operator is carried over to the next piece.
-/

namespace ChoiceLogic.Markup

open Selection Text

/-- With a sign, and without operators. -/
structure Plain (t : Text) : Prop where
  noOperator : ∀ op : Operator, ¬ op.separator <:+: t
  sign : Assignment.sign <:+: t

section Plain

variable {op : Operator} {t u kept : Text}

theorem Plain.blank (h : Plain t) : ' ' ∈ t :=
  h.sign.subset (.head _)

theorem Plain.endsIn_of_append (h : Plain t) (ends : EndsIn op.name (u ++ t)) : EndsIn op.name t :=
  ends.of_append op.isWord_name h.blank

theorem Plain.endsInOperator_append_iff (h : Plain t) (u : Text) :
    EndsInOperator (u ++ t) ↔ EndsInOperator t := by
  constructor
  · rintro ⟨op, ends⟩
    exact ⟨op, h.endsIn_of_append ends⟩
  · rintro ⟨op, ends⟩
    exact ⟨op, ends.trans (List.suffix_append u t)⟩

/-- The sign is not in the word of an operator, so its first space stands before that word. -/
theorem Plain.blank_kept (h : Plain t) (whole : t = kept ++ ' ' :: op.name) : ' ' ∈ kept := by
  obtain ⟨x, y, around⟩ := h.sign
  have split : (x ++ [' ']) ++ '=' :: ' ' :: y = kept ++ ' ' :: op.name := by
    rw [← whole, ← around]
    simp [Assignment.sign]
  rcases List.append_eq_append_iff.mp split with ⟨a, rfl, -⟩ | ⟨a, -, rest⟩
  · simp
  · have equals : '=' ∈ ' ' :: op.name := by
      rw [rest]
      simp
    cases op <;> simp [Operator.name] at equals

/-- Before the word at its end there is no other operator's word. -/
theorem Plain.not_endsInOperator_kept (h : Plain t) (whole : t = kept ++ ' ' :: op.name) (u : Text) :
    ¬ EndsInOperator (u ++ kept) := by
  rintro ⟨o, ends⟩
  obtain ⟨a, ha⟩ := ends.of_append o.isWord_name (h.blank_kept whole)
  refine h.noOperator o ⟨a, op.name, ?_⟩
  rw [whole, ← ha, o.separator_eq]
  simp

theorem Plain.kept_noOperator (h : Plain t) (whole : t = kept ++ ' ' :: op.name) (o : Operator) :
    ¬ o.separator <:+: kept := by
  intro inside
  exact h.noOperator o (inside.trans ⟨[], ' ' :: op.name, by rw [whole, List.nil_append]⟩)

/-- Behind a plain text an operator is found, or the word that the text ends in is found in its
place. -/
theorem Plain.operator_mem_scan (h : Plain t) (u : Text) (op : Operator) (v : Text) :
    (¬ EndsInOperator t ∧ .mark (.operator op) ∈ Token.scan (u ++ t ++ op.separator ++ v)) ∨
      ∃ o : Operator, EndsIn o.name t ∧
        .mark (.operator o) ∈ Token.scan (u ++ t ++ op.separator ++ v) := by
  by_cases ends : EndsInOperator t
  · obtain ⟨o, kept, short⟩ := ends
    have split : u ++ t ++ op.separator ++ v = (u ++ kept) ++ o.separator ++ (op.name ++ [' '] ++ v) := by
      rw [← short, o.separator_eq, op.separator_eq]
      simp
    refine .inr ⟨o, ⟨kept, short⟩, ?_⟩
    rw [split, Token.scan_append_operator o (h.not_endsInOperator_kept short.symm u)]
    simp
  · refine .inl ⟨ends, ?_⟩
    rw [Token.scan_append_operator op (mt (h.endsInOperator_append_iff u).mp ends)]
    simp

end Plain

/-! ## Carries -/

/-- What is carried over to a piece: nothing, or an operator without its first space. -/
def Carry (c : Text) : Prop :=
  c = [] ∨ ∃ op : Operator, c = op.name ++ [' ']

theorem carry_nil : Carry [] := .inl rfl

theorem carry_operator (op : Operator) : Carry (op.name ++ [' ']) := .inr ⟨op, rfl⟩

section Carry

variable {op : Operator} {c t : Text}

theorem not_sign_inside_name (op : Operator) : ¬ Assignment.sign <:+: op.name := by
  rw [Assignment.sign_eq]
  exact not_spaced_infix_of_noBlank op.isWord_name.noBlank

/-- With a carry there can be one more operator, right behind the word that is carried. -/
theorem Carry.not_infix (hc : Carry c) (none : ¬ op.separator <:+: t)
    (start : ∀ (o : Operator) z, c ++ t ≠ o.name ++ op.separator ++ z) :
    ¬ op.separator <:+: c ++ t := by
  rcases hc with rfl | ⟨o, rfl⟩
  · exact none
  · intro inside
    have noBlank := o.isWord_name.noBlank
    have word : ' ' ∉ op.name := op.isWord_name.not_mem_of_isBlank isBlank_space
    rw [op.separator_eq_spaced] at inside none start
    rw [List.append_assoc, List.singleton_append] at inside
    rcases spaced_infix_append_cons word inside with within | ⟨-, ends⟩ | behind
    · exact not_spaced_infix_of_noBlank noBlank within
    · exact not_endsIn_of_noBlank noBlank ends
    · rcases List.infix_cons_iff.mp behind with here | later
      · obtain ⟨z, hz⟩ := here
        apply start o z
        rw [List.append_assoc, List.append_assoc, hz, List.singleton_append]
      · exact none later

/-- When all pieces of a cut have a sign, that operator is not among them. -/
theorem Carry.not_inside_cut {v : Text} (hc : Carry c) (none : ¬ op.separator <:+: t)
    (signs : ∀ p ∈ cut op.separator (c ++ t ++ v), Assignment.sign <:+: p) :
    ¬ op.separator <:+: c ++ t := by
  refine hc.not_infix none fun o z whole => not_sign_inside_name o (signs o.name ?_)
  have noBlank := o.isWord_name.noBlank
  rw [whole, op.separator_eq_spaced, List.append_assoc,
    cut_append_spaced op.isWord_name (not_endsIn_of_noBlank noBlank) (z ++ v),
    cut_of_not_inside (not_spaced_infix_of_noBlank noBlank)]
  exact .head _

theorem closed_of_not_inside {u : Text} (none : ∀ o : Operator, ¬ o.separator <:+: u) : Closed u :=
  closed_of_no_operator fun o found => none o (Token.infix_of_mark_mem_scan found)

theorem bare_name (op : Operator) : Bare op.name := by
  cases op <;> decide

theorem closed_name (op : Operator) : Closed op.name := by
  cases op <;> decide

theorem not_endsInOperator_name (o : Operator) : ¬ EndsInOperator o.name := by
  rintro ⟨p, ends⟩
  exact not_endsIn_of_noBlank o.isWord_name.noBlank ends

theorem operator_mem_scan_name_append (o op : Operator) (z : Text) :
    .mark (.operator op) ∈ Token.scan (o.name ++ op.separator ++ z) := by
  rw [Token.scan_append_operator op (not_endsInOperator_name o)]
  exact List.mem_append_right _ (.head _)

/-- The word of an operator alone in front of an operator is a segment. -/
theorem segments_name_append (o op : Operator) (z : Text) :
    segments (Token.scan (o.name ++ op.separator ++ z)) =
      (o.name, (op, (segments (Token.scan z)).1) :: (segments (Token.scan z)).2) :=
  segments_append_operator (balanced_of_bare (bare_name o)) (closed_name o) (not_endsInOperator_name o) z

/-- When the first segment has a sign, no operator is there. -/
theorem Carry.not_inside_segments {v first : Text} {later : List (Operator × Text)} (hc : Carry c)
    (plain : Plain t) (found : segments (Token.scan (c ++ t ++ v)) = (first, later))
    (sign : Assignment.sign <:+: first) (op : Operator) : ¬ op.separator <:+: c ++ t := by
  refine hc.not_infix (plain.noOperator op) fun o z whole => not_sign_inside_name o ?_
  rw [whole, List.append_assoc (o.name ++ op.separator), segments_name_append] at found
  rwa [(Prod.mk.inj found).1]

theorem Carry.bare (hc : Carry c) : Bare c := by
  rcases hc with rfl | ⟨o, rfl⟩
  · simp [Bare]
  · cases o <;> decide

theorem Carry.closed_group (hc : Carry c) (balanced : Balanced t) :
    Closed (c ++ '(' :: (t ++ [')'])) := by
  have closed : Closed c := by
    rcases hc with rfl | ⟨o, rfl⟩
    · rfl
    · cases o <;> decide
  exact closed_append_enclosed (h := []) (balanced_of_bare hc.bare) closed balanced rfl

end Carry

/-! ## Operands -/

/-- A text that can stand as an operand: plain, or in parentheses. -/
inductive Operand : Text → Prop where
  | plain {t : Text} (plain : Plain t) (balanced : Balanced t) : Operand t
  | group {t : Text} (balanced : Balanced t) : Operand ('(' :: (t ++ [')']))

section Operand

variable {c t : Text}

theorem Operand.closed_append (h : Operand t) (hc : Carry c)
    (inside : Plain t → ∀ op : Operator, ¬ op.separator <:+: c ++ t) : Closed (c ++ t) := by
  cases h with
  | plain plain balanced => exact closed_of_not_inside (inside plain)
  | group balanced => exact hc.closed_group balanced

theorem Operand.balanced (h : Operand t) : Balanced t := by
  cases h with
  | plain plain balanced => exact balanced
  | group balanced => exact balanced.enclosed

/-- The first segment of a text that starts with an operand ends with the operand or before its last
word. -/
theorem Operand.segments_joint (h : Operand t) (hc : Carry c)
    (inside : Plain t → ∀ op : Operator, ¬ op.separator <:+: c ++ t) (o : Operator) (v : Text) :
    (¬ EndsInOperator t ∧ segments (Token.scan (c ++ t ++ o.separator ++ v)) =
      (c ++ t, (o, (segments (Token.scan v)).1) :: (segments (Token.scan v)).2)) ∨
    ∃ (op : Operator) (kept : Text), t = kept ++ ' ' :: op.name ∧
      segments (Token.scan (c ++ t ++ o.separator ++ v)) =
        (c ++ kept, (op, (segments (Token.scan (o.name ++ [' '] ++ v))).1) ::
          (segments (Token.scan (o.name ++ [' '] ++ v))).2) := by
  have balanced := (balanced_of_bare hc.bare).append h.balanced
  by_cases ends : EndsInOperator t
  · cases h with
    | group => exact absurd ends (not_endsInOperator_enclosed _)
    | plain plain =>
        obtain ⟨op, kept, short⟩ := ends
        refine .inr ⟨op, kept, short.symm, ?_⟩
        have split : c ++ t ++ o.separator ++ v =
            (c ++ kept) ++ op.separator ++ (o.name ++ [' '] ++ v) := by
          rw [← short, o.separator_eq, op.separator_eq]
          simp
        have word : Bare (' ' :: op.name) := by cases op <;> decide
        rw [← short, ← List.append_assoc] at balanced
        have before : Closed (c ++ kept) := closed_of_not_inside fun p found =>
          inside plain p (found.trans ⟨[], ' ' :: op.name, by simp [← short]⟩)
        rw [split, segments_append_operator (balanced.of_append_bare word) before
          (plain.not_endsInOperator_kept short.symm c)]
  · have apart : ¬ EndsInOperator (c ++ t) := by
      cases h with
      | plain plain => rwa [plain.endsInOperator_append_iff]
      | @group inner => simpa using not_endsInOperator_closing (c ++ '(' :: inner)
    exact .inl ⟨ends, segments_append_operator balanced (h.closed_append hc inside) apart v⟩

end Operand

/-! ## Pieces -/

section Recut

variable {β : Type} {text : β → Text} {op : Operator} {Apart : β → Prop} {c : Text} {b : β}
  {items : List (Operator × β)} {pieces : List Text}

/-- The texts of some items with operators between them. -/
def joined (text : β → Text) (b : β) (items : List (Operator × β)) : Text :=
  text b ++ items.flatMap fun s => s.1.separator ++ text s.2

theorem joined_cons (text : β → Text) (b : β) (o : Operator) (d : β) (items : List (Operator × β)) :
    joined text b ((o, d) :: items) = text b ++ o.separator ++ joined text d items := by
  simp [joined]

/-- The pieces of a joined text, when each item is followed by a cut at the right place or, if it ends
in the word of the operator, by one that is too early. -/
inductive Recut (text : β → Text) (op : Operator) (Apart : β → Prop) :
    Text → β → List (Operator × β) → List Text → Prop where
  | last (c : Text) (b : β) : Recut text op Apart c b [] [c ++ text b]
  | whole {c : Text} {b d : β} {items : List (Operator × β)} {pieces : List Text} (apart : Apart b)
      (rest : Recut text op Apart [] d items pieces) :
      Recut text op Apart c b ((op, d) :: items) ((c ++ text b) :: pieces)
  | short {c kept : Text} {b d : β} {o : Operator} {items : List (Operator × β)} {pieces : List Text}
      (ends : text b = kept ++ ' ' :: op.name)
      (rest : Recut text op Apart (o.name ++ [' ']) d items pieces) :
      Recut text op Apart c b ((o, d) :: items) ((c ++ kept) :: pieces)

/-- Pieces that count for no more than their items, and for less where they are cut short. -/
structure Bounded (text : β → Text) (op : Operator) (f : Text → Nat) (g : β → Nat)
    (pieces : List Text) (b : β) : Prop where
  whole : ∀ c, Carry c → c ++ text b ∈ pieces → f (c ++ text b) ≤ g b
  short : ∀ c kept, Carry c → text b = kept ++ ' ' :: op.name → c ++ kept ∈ pieces →
    f (c ++ kept) < g b

theorem Bounded.tail {f : Text → Nat} {g : β → Nat} {p : Text}
    (h : Bounded text op f g (p :: pieces) b) : Bounded text op f g pieces b where
  whole c hc mem := h.whole c hc (.tail p mem)
  short c kept hc ends mem := h.short c kept hc ends (.tail p mem)

/-- The pieces together count for no more than the items. They count for as much only if every cut
is at its place and every item is a piece that counts for as much. -/
theorem Recut.sum_le {f : Text → Nat} {g : β → Nat} (h : Recut text op Apart c b items pieces)
    (hc : Carry c) (bound : ∀ d ∈ b :: items.map (·.2), Bounded text op f g pieces d) :
    (pieces.map f).sum ≤ ((b :: items.map (·.2)).map g).sum ∧
      (((b :: items.map (·.2)).map g).sum ≤ (pieces.map f).sum →
        (∀ s ∈ items, s.1 = op) ∧ (∀ d ∈ (b :: items.map (·.2)).dropLast, Apart d) ∧
        (c ++ text b ∈ pieces ∧ g b ≤ f (c ++ text b)) ∧
        ∀ d ∈ items.map (·.2), text d ∈ pieces ∧ g d ≤ f (text d)) := by
  induction h with
  | last c b =>
      have one := (bound b (.head _)).whole c hc (.head _)
      simp only [List.map_cons, List.map_nil, List.sum_cons, List.sum_nil]
      exact ⟨by omega, fun same => ⟨by simp, by simp, ⟨.head _, by omega⟩, by simp⟩⟩
  | @whole c b d items pieces apart rest ih =>
      have one := (bound b (.head _)).whole c hc (.head _)
      obtain ⟨le, same⟩ := ih carry_nil fun e he => (bound e (.tail b he)).tail
      have items_sum : ((b :: ((op, d) :: items).map (·.2)).map g).sum =
        g b + ((d :: items.map (·.2)).map g).sum := List.sum_cons
      have pieces_sum : (((c ++ text b) :: pieces).map f).sum =
        f (c ++ text b) + (pieces.map f).sum := List.sum_cons
      refine ⟨by omega, fun all => ?_⟩
      obtain ⟨operators, aparts, first, others⟩ := same (by omega)
      refine ⟨?_, ?_, ⟨.head _, by omega⟩, ?_⟩
      · simpa using operators
      · rw [List.map_cons, List.dropLast_cons_cons]
        simpa using ⟨apart, aparts⟩
      · intro e he
        rcases List.mem_cons.mp he with rfl | he
        · exact ⟨.tail _ first.1, first.2⟩
        · exact ⟨.tail _ (others e he).1, (others e he).2⟩
  | @short c kept b d o items pieces ends rest ih =>
      have one := (bound b (.head _)).short c kept hc ends (.head _)
      obtain ⟨le, -⟩ := ih (carry_operator o) fun e he => (bound e (.tail b he)).tail
      have items_sum : ((b :: ((o, d) :: items).map (·.2)).map g).sum =
        g b + ((d :: items.map (·.2)).map g).sum := List.sum_cons
      have pieces_sum : (((c ++ kept) :: pieces).map f).sum =
        f (c ++ kept) + (pieces.map f).sum := List.sum_cons
      refine ⟨by omega, fun all => ?_⟩
      omega

/-- Cutting at one operator, when every other one is behind an item that ends in the word of the
one. -/
theorem recut_cut {o : Operator} (hc : Carry c) (plain : ∀ d ∈ b :: items.map (·.2), Plain (text d))
    (hidden : ((o, b) :: items).IsChain fun x y => y.1 = op ∨ EndsIn op.name (text x.2))
    (signs : ∀ p ∈ cut op.separator (c ++ joined text b items), Assignment.sign <:+: p) :
    Recut text op (fun d => ¬ EndsIn op.name (text d)) c b items
      (cut op.separator (c ++ joined text b items)) := by
  induction items generalizing o b c with
  | nil =>
      have single : c ++ joined text b [] = c ++ text b := by simp [joined]
      rw [single] at signs ⊢
      have inside :=
        hc.not_inside_cut (v := []) ((plain b (.head _)).noOperator op) (by simpa using signs)
      rw [op.separator_eq_spaced] at inside ⊢
      rw [cut_of_not_inside inside]
      exact .last c b
  | cons s items ih =>
      obtain ⟨p, d⟩ := s
      obtain ⟨joint, later⟩ := List.isChain_cons_cons.mp hidden
      have plainHead : Plain (text b) := plain b (.head _)
      have plainLater : ∀ e ∈ d :: items.map (·.2), Plain (text e) := fun e he => plain e (.tail b he)
      have inside := hc.not_inside_cut (plainHead.noOperator op)
        (by simpa only [joined, List.append_assoc] using signs)
      rw [op.separator_eq_spaced] at inside
      rw [joined_cons] at signs ⊢
      by_cases ends : EndsIn op.name (text b)
      · obtain ⟨kept, short⟩ := ends
        have split : c ++ (text b ++ p.separator ++ joined text d items) =
            (c ++ kept) ++ spaced op.name ++ (p.name ++ [' '] ++ joined text d items) := by
          rw [← short, p.separator_eq]
          simp [spaced]
        have apart : ¬ EndsIn op.name (c ++ kept) := fun h =>
          plainHead.not_endsInOperator_kept short.symm c ⟨op, h⟩
        have before : ¬ spaced op.name <:+: c ++ kept := fun h =>
          inside (h.trans ⟨[], ' ' :: op.name, by simp [← short]⟩)
        rw [op.separator_eq_spaced, split, cut_append_spaced op.isWord_name apart,
          cut_of_not_inside before, ← op.separator_eq_spaced] at signs ⊢
        exact .short short.symm (ih (carry_operator p) plainLater later fun q hq => signs q (.tail _ hq))
      · obtain rfl : p = op := joint.resolve_right ends
        have apart : ¬ EndsIn p.name (c ++ text b) := fun h => ends (plainHead.endsIn_of_append h)
        have split : c ++ (text b ++ p.separator ++ joined text d items) =
            (c ++ text b) ++ spaced p.name ++ joined text d items := by
          rw [p.separator_eq_spaced]
          simp
        rw [p.separator_eq_spaced] at split
        rw [p.separator_eq_spaced, split, cut_append_spaced p.isWord_name apart, cut_of_not_inside inside,
          ← p.separator_eq_spaced] at signs ⊢
        exact .whole ends (ih carry_nil plainLater later fun q hq => signs q (.tail _ hq))

theorem uncons_segments {a first : Text} {o : Operator} {later : Text × List (Operator × Text)}
    {rest : List Text} (h : (a, (o, later.1) :: later.2) = (first, rest.map (op, ·))) :
    first = a ∧ o = op ∧ ∃ second others, rest = second :: others ∧
      later = (second, others.map (op, ·)) := by
  obtain ⟨rfl, segs⟩ := Prod.mk.inj h
  cases rest with
  | nil => cases segs
  | cons second others =>
      rw [List.map_cons] at segs
      obtain ⟨head, tail⟩ := List.cons.inj segs
      obtain ⟨rfl, same⟩ := Prod.mk.inj head
      exact ⟨rfl, rfl, second, others, rfl, Prod.ext same tail⟩

/-- Cutting at the operators outside parentheses. -/
theorem recut_segments {first : Text} {rest : List Text} (hc : Carry c)
    (operand : ∀ d ∈ b :: items.map (·.2), Operand (text d))
    (found : segments (Token.scan (c ++ joined text b items)) = (first, rest.map (op, ·)))
    (signs : ∀ p ∈ first :: rest, Assignment.sign <:+: p) :
    Recut text op (fun d => ¬ EndsInOperator (text d)) c b items (first :: rest) := by
  induction items generalizing b c first rest with
  | nil =>
      have single : c ++ joined text b [] = c ++ text b := by simp [joined]
      rw [single] at found
      have closed := (operand b (.head _)).closed_append hc fun plain =>
        hc.not_inside_segments plain (v := []) (by simpa using found) (signs first (.head _))
      rw [segments_of_closed closed] at found
      obtain ⟨rfl, none⟩ := Prod.mk.inj found
      obtain rfl : rest = [] := by simpa using none.symm
      exact .last c b
  | cons s items ih =>
      obtain ⟨o, d⟩ := s
      have later : ∀ e ∈ d :: items.map (·.2), Operand (text e) := fun e he => operand e (.tail b he)
      have whole : c ++ joined text b ((o, d) :: items) =
          c ++ text b ++ o.separator ++ joined text d items := by
        rw [joined_cons]
        simp
      rw [whole] at found
      have inside : Plain (text b) → ∀ p : Operator, ¬ p.separator <:+: c ++ text b := fun plain =>
        hc.not_inside_segments plain (by simpa only [List.append_assoc] using found)
          (signs first (.head _))
      rcases (operand b (.head _)).segments_joint hc inside o (joined text d items) with
        ⟨apart, split⟩ | ⟨p, kept, short, split⟩
      · obtain ⟨rfl, rfl, second, others, rfl, next⟩ := uncons_segments (split.symm.trans found)
        exact .whole apart (ih carry_nil later next fun q hq => signs q (.tail _ hq))
      · obtain ⟨rfl, rfl, second, others, rfl, next⟩ := uncons_segments (split.symm.trans found)
        exact .short short (ih (carry_operator o) later next fun q hq => signs q (.tail _ hq))

end Recut

end ChoiceLogic.Markup
