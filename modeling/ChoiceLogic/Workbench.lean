import ChoiceLogic.Recipe

/-! # The workbench

A workbench is a stack of expressions, and tasks put new ones on it. The slots of the stack are
counted from the bottom.
-/

namespace ChoiceLogic

/-- The expressions on the bench, the bottom one first. -/
abbrev Workbench := List Expression

namespace Workbench

inductive Task where
  | blank
  | assign (family value : Text)
  | parse (t : Text)
  /-- Takes the topmost expressions off and puts their combination on. -/
  | combine (operator : Text) (count : Nat)
  | copy (slot : Nat)
  /-- Parses the text of the expression in a slot. -/
  | reparse (slot : Nat)
  | compare (left right : Nat)
  | inspect (slot : Nat)
  deriving Repr, DecidableEq

inductive Report where
  /-- An expression was put on the bench, which now holds `size` of them. -/
  | pushed (size : Nat) (e : Expression)
  | compared (left right : Expression)
  | inspected (e : Expression)
  /-- The bench is as it was before. -/
  | failed (why : BuildFault)

def push (bench : Workbench) : Except BuildFault Expression → Report × Workbench
  | .ok e => (.pushed (bench.length + 1) e, bench ++ [e])
  | .error why => (.failed why, bench)

/-- Performs a task, unless it needs expressions that are not on the bench. -/
def perform? (bench : Workbench) : Task → Option (Report × Workbench)
  | .blank => some (bench.push (.ok .blank))
  | .assign family value => some (bench.push (Recipe.buildAssignment family value))
  | .parse t => some (bench.push (Recipe.buildText t))
  | .combine word count =>
    match Operator.ofWord word with
    | .error e => some (.failed (.unknownOperator e), bench)
    | .ok op =>
      if count ≤ bench.length then
        let below := bench.take (bench.length - count)
        let taken := bench.drop (bench.length - count)
        some (push below (.ok (Expression.combine op taken)))
      else none
  | .copy slot => do
    let e ← bench[slot]?
    some (bench.push (.ok e))
  | .reparse slot => do
    let e ← bench[slot]?
    some (bench.push (Recipe.buildText e.render))
  | .compare left right => do
    let x ← bench[left]?
    let y ← bench[right]?
    some (.compared x y, bench)
  | .inspect slot => do
    let e ← bench[slot]?
    some (.inspected e, bench)

/-- The reports on tasks that are performed one after the other. -/
def performAll? (bench : Workbench) : List Task → Option (List Report)
  | [] => some []
  | task :: rest => do
    let (report, bench) ← bench.perform? task
    let reports ← performAll? bench rest
    some (report :: reports)

end Workbench

end ChoiceLogic
