import ChoiceLogic.Expression.Basic
import ChoiceLogic.Reading.Fault
import ChoiceLogic.Text.Cut

/-! # Plans

A plan is what one level of reading makes of a piece of text: either the piece is settled, or
smaller pieces have to be read first. A piece in which only one operator occurs is flat: all its
parentheses are dropped and it is cut at every operator. A piece in which both occur is cut at the
operators outside all parentheses, which have to be the same.
-/

namespace ChoiceLogic.Reading

/-- A remark on a step of reading, made before the smaller pieces are read. -/
inductive Remark where
  /-- The parentheses around a piece without operators are dropped. -/
  | assignmentUnwrapped (piece : Text)
  /-- The parentheses around a piece with both operators are dropped. -/
  | groupUnwrapped (piece : Text)
  | fragments (op : Operator) (count : Nat)
  | segments (op : Operator) (count : Nat)
  deriving Repr, DecidableEq

inductive Plan where
  | settled (result : Except Fault Expression)
  /-- The piece means what the inner one means. -/
  | unwrap (remark : Remark) (inner : Text)
  /-- The piece means the operator over what the parts mean. -/
  | split (remark : Remark) (op : Operator) (parts : List Text)

namespace Plan

/-- The plan for a piece without operators. -/
def single (piece : Text) (tokens : List Markup.Token) : Plan :=
  match Markup.group? tokens with
  | some inner => .unwrap (.assignmentUnwrapped piece) inner
  | none =>
    match Text.cut Assignment.sign piece with
    | [family, value] =>
      match Assignment.ofParts family value with
      | .ok a => .settled (.ok (.assignment a))
      | .error why => .settled (.error (.emptyPart why piece))
    | _ => .settled (.error (.notOneAssignment piece))

/-- The operands of a piece that has no operator but this one, as they stand between the operators
once the parentheses are gone. -/
def fragments (op : Operator) (piece : Text) : List Text :=
  Text.cut op.separator (piece.filter fun c => c ≠ '(' && c ≠ ')')

/-- The plan for a piece that has no operator but this one. A fragment that occurs again is read
once. -/
def flat (op : Operator) (piece : Text) : Plan :=
  let parts := fragments op piece
  if parts.any (·.all Text.isBlank) then .settled (.error (.noOperand op piece))
  else .split (.fragments op parts.eraseDups.length) op parts.eraseDups

/-- The plan for a piece that has both operators. -/
def layered (piece : Text) (tokens : List Markup.Token) : Plan :=
  match Markup.segments tokens with
  | (_, []) =>
    match Markup.group? tokens with
    | some inner => .unwrap (.groupUnwrapped piece) inner
    | none => .settled (.error (.noOuterOperator piece))
  | (first, (op, second) :: others) =>
    if others.any (·.1 ≠ op) then .settled (.error (.mixedOperators piece))
    else
      let parts := (first :: second :: others.map (·.2)).map Text.trim
      if parts.any (·.isEmpty) then .settled (.error (.noOperand op piece))
      else .split (.segments op parts.length) op parts

/-- The plan for a trimmed piece. -/
def ofPiece (piece : Text) : Plan :=
  let tokens := Markup.Token.scan piece
  match Markup.imbalance? tokens with
  | some why => .settled (.error (.unbalanced why))
  | none =>
    let has (op : Operator) : Bool := tokens.contains (.mark (.operator op))
    match has .and, has .or with
    | false, false => single piece tokens
    | true, false => flat .and piece
    | false, true => flat .or piece
    | true, true => layered piece tokens

/-- The plan for any text. A text of blanks is the blank expression. The sign of an assignment is
looked for before the blanks at the ends go, so that `A = ` is incomplete rather than invalid. -/
def of (t : Text) : Plan :=
  let piece := Text.trim t
  if piece = [] then .settled (.ok .blank)
  else if Text.occurs Assignment.sign t then ofPiece piece
  else .settled (.error (.noAssignment piece))

end Plan

end ChoiceLogic.Reading
