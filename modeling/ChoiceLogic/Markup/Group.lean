import ChoiceLogic.Markup.Token

/-! # Parentheses

What the tokens of a text say about its parentheses: whether they are balanced, whether one pair
encloses the whole text, and which operators stand outside all of them. Levels are counted from the
left; the last two questions are asked of balanced tokens only, where no count falls below zero.
-/

namespace ChoiceLogic.Markup

/-- What keeps parentheses from being balanced. -/
inductive Imbalance where
  | moreOpening
  | moreClosing
  /-- The closing parenthesis at this byte has no partner before it. -/
  | closingFirst (byte : Nat)
  deriving Repr, DecidableEq

/-- The byte of the first closing parenthesis that is met at level zero. -/
def closingFirst? (level byte : Nat) : List Token → Option Nat
  | [] => none
  | t :: rest =>
    if t = .mark .closing ∧ level = 0 then some byte
    else closingFirst? (t.levelAfter level) (byte + t.text.byteSize) rest

/-- Totals are compared before the order of the parentheses is looked at. -/
def imbalance? (ts : List Token) : Option Imbalance :=
  let openings := ts.count (.mark .opening)
  let closings := ts.count (.mark .closing)
  if closings < openings then some .moreOpening
  else if openings < closings then some .moreClosing
  else (closingFirst? 0 0 ts).map .closingFirst

/-- The text up to the token that closes `level` pairs, when that is the last token. -/
def enclosed? (level : Nat) : List Token → Option Text
  | [] => none
  | t :: rest =>
    if t.levelAfter level = 0 then
      if rest = [] then some [] else none
    else (enclosed? (t.levelAfter level) rest).map (t.text ++ ·)

/-- The text inside the pair of parentheses that encloses everything. -/
def group? : List Token → Option Text
  | .mark .opening :: rest => enclosed? 1 rest
  | _ => none

/-- The text up to the first operator at level zero, and each such operator with the text up to the
next one. -/
def segmentsAt (level : Nat) : List Token → Text × List (Operator × Text)
  | [] => ([], [])
  | t :: rest =>
    let later := segmentsAt (t.levelAfter level) rest
    match t, level with
    | .mark (.operator op), 0 => ([], (op, later.1) :: later.2)
    | _, _ => (t.text ++ later.1, later.2)

/-- The segments between the operators outside all parentheses. -/
def segments (ts : List Token) : Text × List (Operator × Text) :=
  segmentsAt 0 ts

end ChoiceLogic.Markup
