import ChoiceLogic.Assignment
import ChoiceLogic.Markup.Group
import ChoiceLogic.Text.Quoted

/-! # Why a text is not read

Each fault names the piece of text in which it was found, without the blanks around the piece, where
its wording shows one.
-/

namespace ChoiceLogic.Reading

inductive Fault where
  /-- There is no text at all, not even an empty one. -/
  | missing
  | noAssignment (piece : Text)
  | unbalanced (why : Markup.Imbalance)
  /-- There are operators, and all of them stand inside parentheses that do not enclose the piece. -/
  | noOuterOperator (piece : Text)
  | mixedOperators (piece : Text)
  | notOneAssignment (piece : Text)
  | emptyPart (why : Assignment.Fault) (piece : Text)
  | noOperand (op : Operator) (piece : Text)
  | tooDeep (limit : Nat)
  | tooLong (bytes limit : Nat)
  deriving Repr, DecidableEq

/-- What a caller can do about a fault. -/
inductive FaultKind where
  | argument
  /-- The text is wrong as it stands. -/
  | invalid
  /-- A part of the text is missing. -/
  | incomplete
  | limit
  deriving Repr, DecidableEq

namespace Fault

def kind : Fault → FaultKind
  | .missing => .argument
  | .noAssignment _ | .unbalanced _ | .noOuterOperator _ | .mixedOperators _ => .invalid
  | .notOneAssignment _ | .emptyPart _ _ | .noOperand _ _ => .incomplete
  | .tooDeep _ | .tooLong _ _ => .limit

/-- The words that open the message of a fault of this kind. -/
def opening : FaultKind → Text
  | .argument => "invalid argument: ".toList
  | .invalid => "invalid expression: ".toList
  | .incomplete => "incomplete expression: ".toList
  | .limit => "expression ".toList

def imbalanceMessage : Markup.Imbalance → Text
  | .moreOpening => "more \"(\" than \")\"".toList
  | .moreClosing => "more \")\" than \"(\"".toList
  | .closingFirst byte =>
    "closing parenthesis at byte ".toList ++ Text.ofNat byte ++ " before opening".toList

/-- The message without its opening words. -/
def detail : Fault → Text
  | .missing => "input value of None is not valid".toList
  | .noAssignment piece => Text.quoted piece ++ " needs to have at least one assignment".toList
  | .unbalanced why => imbalanceMessage why
  | .noOuterOperator piece => "no operator outside parentheses in ".toList ++ Text.quoted piece
  | .mixedOperators piece =>
    "AND and OR on the same level are forbidden in ".toList ++ Text.quoted piece
  | .notOneAssignment piece =>
    Text.quoted piece ++ " is not a single `family = value` assignment".toList
  | .emptyPart why piece => why.message ++ " in ".toList ++ Text.quoted piece
  | .noOperand op piece => op.name ++ " without an operand in ".toList ++ Text.quoted piece
  | .tooDeep limit => "nested deeper than ".toList ++ Text.ofNat limit ++ " levels".toList
  | .tooLong bytes limit =>
    "is ".toList ++ Text.ofNat bytes ++ " bytes long, limit is ".toList ++ Text.ofNat limit

def message (f : Fault) : Text :=
  opening f.kind ++ f.detail

end Fault

end ChoiceLogic.Reading
