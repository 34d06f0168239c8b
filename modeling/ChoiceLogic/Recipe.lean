import ChoiceLogic.Reading.Basic

/-! # Recipes

A recipe says how to build an expression from the leaves up.
-/

namespace ChoiceLogic

/-- Why an expression could not be built. -/
inductive BuildFault where
  | reading (f : Reading.Fault)
  | assignment (f : Assignment.Fault)
  | unknownOperator (e : UnknownOperator)
  deriving Repr, DecidableEq

def BuildFault.message : BuildFault → Text
  | .reading f => f.message
  | .assignment f => f.message
  | .unknownOperator e => e.message

inductive Recipe where
  | blank
  /-- The expression that a text stands for. -/
  | text (t : Text)
  | assignment (family value : Text)
  | combine (operator : Text) (operands : List Recipe)

namespace Recipe

def buildText (t : Text) : Except BuildFault Expression :=
  (Reading.parse t).mapError .reading

def buildAssignment (family value : Text) : Except BuildFault Expression :=
  ((Assignment.ofParts family value).mapError .assignment).map .assignment

mutual
/-- The operator is looked at before the operands, and these from left to right. -/
def build : Recipe → Except BuildFault Expression
  | .blank => .ok .blank
  | .text t => buildText t
  | .assignment family value => buildAssignment family value
  | .combine word operands =>
    match Operator.ofWord word with
    | .error e => .error (.unknownOperator e)
    | .ok op => (buildAll operands).map (Expression.combine op)

def buildAll : List Recipe → Except BuildFault (List Expression)
  | [] => .ok []
  | r :: rest =>
    match build r with
    | .error f => .error f
    | .ok e => (buildAll rest).map (e :: ·)
end

end Recipe

end ChoiceLogic
