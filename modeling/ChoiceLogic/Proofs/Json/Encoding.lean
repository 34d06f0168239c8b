import ChoiceLogic.Json.Compact
import ChoiceLogic.Proofs.Text.ByteOrder
import ChoiceLogic.Proofs.Text.Cut

/-! # The encoding tells expressions apart

Every piece of the JSON encoding shows where it ends: an escape does, so a string literal does, and so
the encoding of an expression does. Two pieces with anything behind them are the same text only if the
pieces are the same, so no two expressions have the same encoding.
-/

namespace ChoiceLogic

namespace Json.Compact

variable {r s : Text}

/-! ## Escapes -/

private def shortEscapes : List (Char × Char) :=
  [('"', '"'), ('\\', '\\'), ('\x08', 'b'), ('\x0c', 'f'), ('\n', 'n'), ('\r', 'r'), ('\t', 't')]

private theorem mem_shortEscapes {c letter : Char} (h : shortEscape? c = some letter) :
    (c, letter) ∈ shortEscapes := by
  unfold shortEscape? at h
  split at h
  case h_8 => cases h
  all_goals
    obtain rfl := Option.some.inj h
    decide

private theorem shortEscape?_injective {c d letter : Char} (hc : shortEscape? c = some letter)
    (hd : shortEscape? d = some letter) : c = d := by
  have unique : ∀ p ∈ shortEscapes, ∀ q ∈ shortEscapes, p.2 = q.2 → p.1 = q.1 := by decide
  exact unique _ (mem_shortEscapes hc) _ (mem_shortEscapes hd) rfl

private theorem shortEscape?_ne_u {c letter : Char} (h : shortEscape? c = some letter) :
    letter ≠ 'u' := by
  have other : ∀ p ∈ shortEscapes, p.2 ≠ 'u' := by decide
  exact other _ (mem_shortEscapes h)

theorem escape_cases (c : Char) :
    (∃ letter, shortEscape? c = some letter ∧ escape c = ['\\', letter]) ∨
    (c.toNat < 32 ∧ escape c =
      ['\\', 'u', '0', '0', Nat.digitChar (c.toNat / 16), Nat.digitChar (c.toNat % 16)]) ∨
    (c ≠ '"' ∧ c ≠ '\\' ∧ escape c = [c]) := by
  cases short : shortEscape? c with
  | some letter => exact .inl ⟨letter, rfl, by simp [escape, short]⟩
  | none =>
      by_cases control : c.toNat < 32
      · exact .inr (.inl ⟨control, by simp [escape, short, control]⟩)
      · refine .inr (.inr ⟨?_, ?_, by simp [escape, short, control]⟩)
        · rintro rfl
          cases short
        · rintro rfl
          cases short

private theorem digitChar_injective {m n : Nat} (hm : m < 16) (hn : n < 16)
    (same : Nat.digitChar m = Nat.digitChar n) : m = n := by
  have unique : ∀ m : Fin 16, ∀ n : Fin 16, Nat.digitChar m = Nat.digitChar n → m = n := by decide
  exact congrArg Fin.val (unique ⟨m, hm⟩ ⟨n, hn⟩ same)

theorem escape_append_inj {c d : Char} (h : escape c ++ r = escape d ++ s) : c = d ∧ r = s := by
  rcases escape_cases c with ⟨letter, hc, ec⟩ | ⟨hc, ec⟩ | ⟨-, hc, ec⟩ <;>
    rcases escape_cases d with ⟨other, hd, ed⟩ | ⟨hd, ed⟩ | ⟨-, hd, ed⟩ <;>
    simp only [ec, ed, List.cons_append, List.nil_append, List.cons.injEq, true_and] at h
  · obtain ⟨rfl, rest⟩ := h
    exact ⟨shortEscape?_injective hc hd, rest⟩
  · exact absurd h.1 (shortEscape?_ne_u hc)
  · exact absurd h.1.symm hd
  · exact absurd h.1.symm (shortEscape?_ne_u hd)
  · obtain ⟨high, low, rest⟩ := h
    have first := digitChar_injective (by omega) (by omega) high
    have second := digitChar_injective (by omega) (by omega) low
    exact ⟨Char.toNat_inj.mp (by omega), rest⟩
  · exact absurd h.1.symm hd
  · exact absurd h.1 hc
  · exact absurd h.1 hc
  · exact h

theorem escape_append_ne_quote (c : Char) : escape c ++ r ≠ '"' :: s := by
  rcases escape_cases c with ⟨letter, -, ec⟩ | ⟨-, ec⟩ | ⟨quote, -, ec⟩ <;>
    simp only [ec, List.cons_append, List.nil_append, ne_eq, List.cons.injEq, not_and]
  · exact fun first => absurd first (by decide)
  · exact fun first => absurd first (by decide)
  · exact fun first => absurd first quote

/-! ## Literals, objects and arrays -/

theorem literal_append (t r : Text) : literal t ++ r = '"' :: (t.flatMap escape ++ '"' :: r) := by
  simp [literal]

theorem literal_append_inj {t u : Text} (h : literal t ++ r = literal u ++ s) : t = u ∧ r = s := by
  rw [literal_append, literal_append] at h
  replace h := (List.cons.inj h).2
  induction t generalizing u with
  | nil =>
      cases u with
      | nil => exact ⟨rfl, (List.cons.inj h).2⟩
      | cons d u =>
          rw [List.flatMap_cons, List.append_assoc] at h
          exact absurd h.symm (escape_append_ne_quote d)
  | cons c t ih =>
      cases u with
      | nil =>
          rw [List.flatMap_cons, List.append_assoc] at h
          exact absurd h (escape_append_ne_quote c)
      | cons d u =>
          rw [List.flatMap_cons, List.flatMap_cons, List.append_assoc, List.append_assoc] at h
          obtain ⟨rfl, later⟩ := escape_append_inj h
          obtain ⟨rfl, rest⟩ := ih later
          exact ⟨rfl, rest⟩

theorem object_single_append (name : String) (value r : Text) :
    object [(name, value)] ++ r = '\x7b' :: (literal name.toList ++ ':' :: (value ++ '\x7d' :: r)) := by
  simp [object]

theorem object_single_inj {name other : String} {value second : Text}
    (h : object [(name, value)] ++ r = object [(other, second)] ++ s) :
    name = other ∧ value ++ '\x7d' :: r = second ++ '\x7d' :: s := by
  rw [object_single_append, object_single_append] at h
  obtain ⟨names, values⟩ := literal_append_inj (List.cons.inj h).2
  exact ⟨String.toList_inj.mp names, (List.cons.inj values).2⟩

theorem object_pair_append (name other : String) (value second r : Text) :
    object [(name, value), (other, second)] ++ r =
      '\x7b' :: (literal name.toList ++ ':' :: (value ++ ',' :: (literal other.toList ++
        ':' :: (second ++ '\x7d' :: r)))) := by
  simp [object]

/-- Two objects with the same two names agree in what their values show. -/
theorem object_pair_inj {p q : Prop} {name other : String} {value value' second second' : Text}
    (h : object [(name, value), (other, second)] ++ r = object [(name, value'), (other, second')] ++ s)
    (first : ∀ {r s}, value ++ r = value' ++ s → p ∧ r = s)
    (later : ∀ {r s}, second ++ r = second' ++ s → q ∧ r = s) : p ∧ q ∧ r = s := by
  rw [object_pair_append, object_pair_append] at h
  have values := (List.cons.inj (List.append_cancel_left (List.cons.inj h).2)).2
  obtain ⟨hp, others⟩ := first values
  have seconds := (List.cons.inj (List.append_cancel_left (List.cons.inj others).2)).2
  obtain ⟨hq, rest⟩ := later seconds
  exact ⟨hp, hq, (List.cons.inj rest).2⟩

theorem array_append (elements : List Text) (r : Text) :
    array elements ++ r = '[' :: ([','].intercalate elements ++ ']' :: r) := by
  simp [array]

end Json.Compact

namespace Expression

open Json.Compact

variable {x y : Expression} {xs ys : List Expression} {r s : Text}

/-- Induction over an expression and the operands within it. -/
theorem operands_induction {motive : Expression → Prop} (blank : motive .blank)
    (assignment : ∀ a, motive (.assignment a))
    (operation : ∀ op operands, (∀ e ∈ operands, motive e) → motive (.operation op operands)) :
    ∀ e, motive e
  | .blank => blank
  | .assignment a => assignment a
  | .operation op operands =>
    operation op operands fun e _ => operands_induction blank assignment operation e

theorem encodeAll_eq_map (es : List Expression) : encodeAll es = es.map encode := by
  induction es with
  | nil => rfl
  | cons e es ih => rw [encodeAll, ih, List.map_cons]

theorem encode_append_ne_bracket (e : Expression) : e.encode ++ r ≠ ']' :: s := by
  cases e with
  | blank => simp [encode, literal_append]
  | assignment => simp [encode, object_single_append]
  | operation => simp [encode, object_single_append]

/-- An encoding shows where it ends. -/
def Delimited (x : Expression) : Prop :=
  ∀ y r s, x.encode ++ r = y.encode ++ s → x = y ∧ r = s

theorem elements_append_inj (each : ∀ x ∈ xs, Delimited x)
    (h : xs.flatMap (fun x => ',' :: x.encode) ++ ']' :: r =
      ys.flatMap (fun y => ',' :: y.encode) ++ ']' :: s) : xs = ys ∧ r = s := by
  induction xs generalizing ys with
  | nil =>
      cases ys with
      | nil => exact ⟨rfl, (List.cons.inj h).2⟩
      | cons y ys => simp at h
  | cons x xs ih =>
      cases ys with
      | nil => simp at h
      | cons y ys =>
          simp only [List.flatMap_cons, List.cons_append, List.append_assoc, List.cons.injEq,
            true_and] at h
          obtain ⟨rfl, later⟩ := each x (.head _) _ _ _ h
          obtain ⟨rfl, rest⟩ := ih (fun z hz => each z (.tail x hz)) later
          exact ⟨rfl, rest⟩

theorem array_append_inj (each : ∀ x ∈ xs, Delimited x)
    (h : array (encodeAll xs) ++ r = array (encodeAll ys) ++ s) : xs = ys ∧ r = s := by
  have joined (e : Expression) (es : List Expression) : [','].intercalate (encodeAll (e :: es)) =
      e.encode ++ es.flatMap (fun e => ',' :: e.encode) := by
    rw [encodeAll_eq_map, List.map_cons, Text.intercalate_cons_eq_flatMap, List.flatMap_map]
    rfl
  rw [array_append, array_append] at h
  replace h := (List.cons.inj h).2
  cases xs with
  | nil =>
      cases ys with
      | nil => exact ⟨rfl, (List.cons.inj h).2⟩
      | cons y ys =>
          rw [joined, List.append_assoc] at h
          exact absurd h.symm (encode_append_ne_bracket y)
  | cons x xs =>
      cases ys with
      | nil =>
          rw [joined, List.append_assoc] at h
          exact absurd h (encode_append_ne_bracket x)
      | cons y ys =>
          rw [joined, joined, List.append_assoc, List.append_assoc] at h
          obtain ⟨rfl, later⟩ := each x (.head _) _ _ _ h
          obtain ⟨rfl, rest⟩ := elements_append_inj (fun z hz => each z (.tail x hz)) later
          exact ⟨rfl, rest⟩

theorem operator_eq_of_name_eq {o p : Operator} (h : o.name = p.name) : o = p := by
  cases o <;> cases p <;> simp_all [Operator.name]

theorem delimited (x : Expression) : Delimited x := by
  induction x using operands_induction with
  | blank =>
      intro y r s h
      cases y with
      | blank => exact ⟨rfl, List.append_cancel_left h⟩
      | assignment | operation => simp [encode, literal_append, object_single_append] at h
  | assignment a =>
      intro y r s h
      cases y with
      | blank => simp [encode, literal_append, object_single_append] at h
      | assignment b =>
          obtain ⟨family, value, rest⟩ :=
            object_pair_inj (object_single_inj h).2 literal_append_inj literal_append_inj
          exact ⟨congrArg Expression.assignment (Assignment.ext_parts family value),
            (List.cons.inj rest).2⟩
      | operation => exact absurd (object_single_inj h).1 (by decide)
  | operation op operands ih =>
      intro y r s h
      cases y with
      | blank => simp [encode, literal_append, object_single_append] at h
      | assignment => exact absurd (object_single_inj h).1 (by decide)
      | operation p others =>
          obtain ⟨operands, name, rest⟩ :=
            object_pair_inj (object_single_inj h).2 (array_append_inj ih) literal_append_inj
          rw [operands, operator_eq_of_name_eq name]
          exact ⟨rfl, (List.cons.inj rest).2⟩

theorem eq_of_utf8_encode_eq (h : x.encode.utf8 = y.encode.utf8) : x = y := by
  have same : x.encode = y.encode := Text.utf8_injective h
  exact (delimited x y [] [] (congrArg (· ++ []) same)).1

/-- The bytes that a key is made of are those of one expression only, whatever stands in the parts of its
assignments and however its operations are nested. -/
theorem utf8_encode_inj (x y : Expression) : x.encode.utf8 = y.encode.utf8 ↔ x = y := by
  constructor
  · exact eq_of_utf8_encode_eq
  · rintro rfl
    rfl

end Expression

end ChoiceLogic
