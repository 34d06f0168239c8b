import ChoiceLogic.Expression.Basic

/-! # Combining expressions

`Expression.combine` puts an operator over a list of expressions and returns the canonical form of
the result: operands of the same operator are merged in, repeats are dropped, and what survives is
in the order of its text. The texts of the operands are made once and carried along.
-/

namespace ChoiceLogic.Expression

/-- A loose likeness of expressions, asked only of expressions that have the same text.
Assignments are alike when they share a part, operations when they have the same operator or the
same operands, and a blank is like nothing. -/
def alike : Expression → Expression → Bool
  | .assignment a, .assignment b => a.sharesPart b
  | .operation o xs, .operation p ys => o == p || xs == ys
  | _, _ => false

/-- What an expression contributes to an operation with this operator. -/
def operandsFor (op : Operator) : Expression → List Expression
  | .operation o operands => if o = op then operands else [.operation o operands]
  | e => [e]

/-- An expression beside its text. -/
structure Labelled where
  expression : Expression
  label : Text
  label_eq : label = expression.render

namespace Labelled

def of (e : Expression) : Labelled :=
  ⟨e, e.render, rfl⟩

/-- The first repeats the second: same text, and alike. -/
def repeats (x y : Labelled) : Bool :=
  x.label == y.label && y.expression.alike x.expression

def notAfter (x y : Labelled) : Bool :=
  Text.notAfter x.label y.label

end Labelled

/-- The operands that `combine` keeps: of those that repeat each other the first, all in ascending
order of their text, and those of equal text in the order in which they came. -/
def survivors (op : Operator) (es : List Expression) : List Expression :=
  let labelled := (es.flatMap (operandsFor op)).map Labelled.of
  ((labelled.eraseDupsBy Labelled.repeats).mergeSort Labelled.notAfter).map Labelled.expression

/-- The canonical form of an operator over some expressions. A lone survivor stands for itself. -/
def combine (op : Operator) (es : List Expression) : Expression :=
  match survivors op es with
  | [] => .blank
  | [e] => e
  | operands => .operation op operands

end ChoiceLogic.Expression
