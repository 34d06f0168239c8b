import ChoiceLogic.Expression.Basic

/-! # Depth, leaves and outline

What can be told of an expression from its tree: how deep it is, which assignments stand at its
leaves, and which families and choices it so refers to. Its outline lists the nodes from the root
down, each before its operands, with the number of operations above it.
-/

namespace ChoiceLogic.Expression

mutual
/-- Number of nodes on the longest path from the root to a leaf. -/
def depth : Expression → Nat
  | .blank => 0
  | .assignment _ => 1
  | .operation _ operands => 1 + maxDepth operands

def maxDepth : List Expression → Nat
  | [] => 0
  | e :: rest => max (depth e) (maxDepth rest)
end

mutual
/-- The assignments at the leaves, from left to right. -/
def assignments : Expression → List Assignment
  | .blank => []
  | .assignment a => [a]
  | .operation _ operands => allAssignments operands

def allAssignments : List Expression → List Assignment
  | [] => []
  | e :: rest => assignments e ++ allAssignments rest
end

def assignmentCount (e : Expression) : Nat :=
  e.assignments.length

/-- The families that the expression refers to, in ascending order. -/
def families (e : Expression) : List Text :=
  Text.sortDistinct (e.assignments.map Assignment.family)

/-- The assignments that the expression refers to, as text, in ascending order. -/
def choices (e : Expression) : List Text :=
  Text.sortDistinct (e.assignments.map Assignment.render)

/-! ## Outlines -/

structure Row where
  level : Nat
  node : Expression
  deriving DecidableEq

mutual
def outlineAt (level : Nat) : Expression → List Row
  | .blank => [⟨level, .blank⟩]
  | .assignment a => [⟨level, .assignment a⟩]
  | .operation op operands =>
    ⟨level, .operation op operands⟩ :: operandOutlinesAt (level + 1) operands

def operandOutlinesAt (level : Nat) : List Expression → List Row
  | [] => []
  | e :: rest => outlineAt level e ++ operandOutlinesAt level rest
end

def outline (e : Expression) : List Row :=
  outlineAt 0 e

end ChoiceLogic.Expression
