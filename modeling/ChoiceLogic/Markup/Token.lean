import ChoiceLogic.Operator

/-! # Tokens

Only the operators between their two spaces and the parentheses structure a text. Whatever stands
between two of these marks is one run. Marks are found from left to right and do not overlap, so in
` AND AND ` the second operator lacks its first space and is part of a run.
-/

namespace ChoiceLogic.Markup

inductive Mark where
  | operator (op : Operator)
  | opening
  | closing
  deriving Repr, DecidableEq

namespace Mark

def text : Mark → Text
  | .operator op => op.separator
  | .opening => ['(']
  | .closing => [')']

def all : List Mark :=
  [.operator .and, .operator .or, .opening, .closing]

/-- The mark with which a text starts. -/
def starting? (t : Text) : Option Mark :=
  all.find? (·.text.isPrefixOf t)

theorem text_length_pos (m : Mark) : 0 < m.text.length := by
  cases m with
  | operator op => cases op <;> decide
  | opening => decide
  | closing => decide

theorem isPrefix_of_starting?_eq_some {t : Text} {m : Mark} (h : starting? t = some m) :
    m.text <+: t := by
  have found := List.find?_some (p := fun m : Mark => m.text.isPrefixOf t) h
  exact List.isPrefixOf_iff_prefix.1 found

end Mark

inductive Token where
  | mark (m : Mark)
  /-- A stretch of text in which no mark starts. -/
  | run (t : Text)
  deriving Repr, DecidableEq

namespace Token

def text : Token → Text
  | .mark m => m.text
  | .run t => t

/-- Puts a character that belongs to no mark in front of the tokens. -/
def extend (c : Char) : List Token → List Token
  | .run t :: rest => .run (c :: t) :: rest
  | ts => .run [c] :: ts

/-- Tokens of what follows the next `skip` characters. -/
def scanAfter : (skip : Nat) → Text → List Token
  | _, [] => []
  | skip + 1, _ :: rest => scanAfter skip rest
  | 0, c :: rest =>
    match Mark.starting? (c :: rest) with
    | some m => .mark m :: scanAfter (m.text.length - 1) rest
    | none => extend c (scanAfter 0 rest)

/-- The tokens of a text. Their texts joined together are the text. -/
def scan (t : Text) : List Token :=
  scanAfter 0 t

theorem scanAfter_eq (skip : Nat) (t : Text) : scanAfter skip t = scan (t.drop skip) := by
  induction skip generalizing t with
  | zero => rfl
  | succ skip ih =>
    cases t with
    | nil => rfl
    | cons c t => exact ih t

theorem scan_nil : scan [] = [] := rfl

theorem scan_cons (c : Char) (rest : Text) :
    scan (c :: rest) =
      match Mark.starting? (c :: rest) with
      | some m => .mark m :: scan (rest.drop (m.text.length - 1))
      | none => extend c (scan rest) := by
  simp only [← scanAfter_eq]
  rfl

theorem flatMap_text_extend (c : Char) (ts : List Token) :
    (extend c ts).flatMap text = c :: ts.flatMap text := by
  cases ts with
  | nil => rfl
  | cons t ts => cases t <;> rfl

theorem flatMap_text_scan (t : Text) : (scan t).flatMap text = t := by
  induction n : t.length using Nat.strongRecOn generalizing t with
  | ind n ih =>
    subst n
    cases t with
    | nil => rfl
    | cons c rest =>
      rw [scan_cons]
      cases h : Mark.starting? (c :: rest) with
      | none => rw [flatMap_text_extend, ih _ (by simp) rest rfl]
      | some m =>
        obtain ⟨behind, eq⟩ := Mark.isPrefix_of_starting?_eq_some h
        have rest_eq : rest.drop (m.text.length - 1) = behind := by
          have pos := Mark.text_length_pos m
          have := congrArg (List.drop m.text.length) eq
          rw [List.drop_left] at this
          rw [this]
          cases k : m.text.length with
          | zero => omega
          | succ k => rfl
        have len := congrArg List.length eq
        simp only [List.length_append] at len
        rw [List.flatMap_cons, rest_eq, ih _ (by have := Mark.text_length_pos m; omega) behind rfl]
        exact eq

/-- How deep inside parentheses the text behind a token is, given how deep the token is. -/
def levelAfter (level : Nat) : Token → Nat
  | .mark .opening => level + 1
  | .mark .closing => level - 1
  | _ => level

end Token

end ChoiceLogic.Markup
