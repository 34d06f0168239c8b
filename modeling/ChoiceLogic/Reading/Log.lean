import ChoiceLogic.Reading.Plan

/-! # The log of a reading -/

namespace ChoiceLogic.Reading

inductive Severity where
  | trace
  | debug
  deriving Repr, DecidableEq

def Severity.name : Severity → Text
  | .trace => "TRACE".toList
  | .debug => "DEBUG".toList

inductive Entry where
  /-- A remark on the step at this depth. -/
  | step (depth : Nat) (remark : Remark)
  /-- The whole text could not be read. -/
  | rejected (input : Text) (fault : Fault)
  deriving Repr, DecidableEq

def Remark.message : Remark → Text
  | .assignmentUnwrapped piece =>
    "stripping parentheses around assignment ".toList ++ Text.quoted piece
  | .groupUnwrapped piece => "stripping parentheses around ".toList ++ Text.quoted piece
  | .fragments op count => op.name ++ " over ".toList ++ Text.ofNat count ++ " fragments".toList
  | .segments op count =>
    op.name ++ " over ".toList ++ Text.ofNat count ++ " top-level segments".toList

namespace Entry

def severity : Entry → Severity
  | .step _ _ => .trace
  | .rejected _ _ => .debug

def message : Entry → Text
  | .step depth remark => "depth ".toList ++ Text.ofNat depth ++ ": ".toList ++ remark.message
  | .rejected input fault =>
    "rejected variance expression ".toList ++ Text.quoted input ++ ": ".toList ++ fault.message

end Entry

/-- A result, or a fault, with what was logged on the way to it. -/
structure Logged (α : Type) where
  log : List Entry
  result : Except Fault α

namespace Logged

def fail {α : Type} (f : Fault) : Logged α :=
  ⟨[], .error f⟩

/-- Logs an entry first. -/
def after {α : Type} (entry : Entry) (x : Logged α) : Logged α :=
  ⟨entry :: x.log, x.result⟩

def map {α β : Type} (f : α → β) (x : Logged α) : Logged β :=
  ⟨x.log, x.result.map f⟩

/-- The results for all elements in order, up to the first fault. -/
def each {α β : Type} (f : α → Logged β) : List α → Logged (List β)
  | [] => ⟨[], .ok []⟩
  | a :: rest =>
    let x := f a
    match x.result with
    | .error fault => ⟨x.log, .error fault⟩
    | .ok b =>
      let y := each f rest
      ⟨x.log ++ y.log, y.result.map (b :: ·)⟩

end Logged

end ChoiceLogic.Reading
