import ChoiceLogic.Assignment
import ChoiceLogic.Operator

/-! # Expressions

The tree of a choice expression and its text. The tree itself admits operations of any shape;
`Expression.combine` is what builds the canonical ones.
-/

namespace ChoiceLogic

inductive Expression where
  /-- No choice at all. -/
  | blank
  | assignment (a : Assignment)
  | operation (op : Operator) (operands : List Expression)

namespace Expression

mutual
protected def decEq : (x y : Expression) → Decidable (x = y)
  | .blank, .blank => isTrue rfl
  | .blank, .assignment _ | .blank, .operation _ _ => isFalse nofun
  | .assignment _, .blank | .assignment _, .operation _ _ => isFalse nofun
  | .operation _ _, .blank | .operation _ _, .assignment _ => isFalse nofun
  | .assignment a, .assignment b =>
    if h : a = b then isTrue (h ▸ rfl) else isFalse fun e => h (Expression.assignment.inj e)
  | .operation o xs, .operation p ys =>
    if h : o = p then
      match Expression.listDecEq xs ys with
      | isTrue hs => isTrue (h ▸ hs ▸ rfl)
      | isFalse hs => isFalse fun e => hs (Expression.operation.inj e).2
    else isFalse fun e => h (Expression.operation.inj e).1

protected def listDecEq : (xs ys : List Expression) → Decidable (xs = ys)
  | [], [] => isTrue rfl
  | [], _ :: _ | _ :: _, [] => isFalse nofun
  | x :: xs, y :: ys =>
    match Expression.decEq x y with
    | isTrue h =>
      match Expression.listDecEq xs ys with
      | isTrue hs => isTrue (h ▸ hs ▸ rfl)
      | isFalse hs => isFalse fun e => hs (List.cons.inj e).2
    | isFalse h => isFalse fun e => h (List.cons.inj e).1
end

instance : DecidableEq Expression :=
  Expression.decEq

def isOperation : Expression → Bool
  | .operation _ _ => true
  | _ => false

mutual
/-- The text of an expression; an operation among the operands of another stands in parentheses. -/
def render : Expression → Text
  | .blank => []
  | .assignment a => a.render
  | .operation op operands => op.separator.intercalate (operandTexts operands)

/-- The texts of the operands of an operation. -/
def operandTexts : List Expression → List Text
  | [] => []
  | e :: rest =>
    (if e.isOperation then '(' :: (render e ++ [')']) else render e) :: operandTexts rest
end

end Expression

end ChoiceLogic
