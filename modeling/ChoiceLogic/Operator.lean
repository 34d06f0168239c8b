import ChoiceLogic.Text.Blank

/-! # Operators -/

namespace ChoiceLogic

inductive Operator where
  | and
  | or
  deriving Repr, DecidableEq

/-- The error for a word that names no operator; it keeps the word as it was given. -/
structure UnknownOperator where
  word : Text
  deriving Repr, DecidableEq

def UnknownOperator.message (e : UnknownOperator) : Text :=
  "unknown operator type: ".toList ++ e.word

namespace Operator

def name : Operator → Text
  | .and => ['A', 'N', 'D']
  | .or => ['O', 'R']

/-- The operator as it stands between two operands, with one space on each side. -/
def separator : Operator → Text
  | .and => [' ', 'A', 'N', 'D', ' ']
  | .or => [' ', 'O', 'R', ' ']

theorem separator_eq (op : Operator) : op.separator = ' ' :: (op.name ++ [' ']) := by
  cases op <;> rfl

/-- Reads an operator's name in upper or lower ASCII case, with blanks around it. -/
def ofWord (word : Text) : Except UnknownOperator Operator :=
  let lower := (Text.trim word).map Char.toLower
  if lower = ['a', 'n', 'd'] then .ok .and
  else if lower = ['o', 'r'] then .ok .or
  else .error ⟨word⟩

theorem ofWord_separator (op : Operator) : ofWord op.separator = .ok op := by
  cases op <;> rfl

end Operator

end ChoiceLogic
