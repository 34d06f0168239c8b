import ChoiceLogic.Expression.Combine
import ChoiceLogic.Reading.Log

/-! # Reading

A text is read level by level: a plan for the text, then the pieces that the plan asks for, one
level deeper. The depth at which a piece may be read is limited, and so is the size of the text.
-/

namespace ChoiceLogic.Reading

structure Limits where
  /-- The greatest depth at which a piece is read; the whole text has depth zero. -/
  maxDepth : Nat := 64
  /-- The greatest size of the whole text in bytes. -/
  maxBytes : Nat := 65536
  deriving Repr, DecidableEq

/-- Reads the piece at a depth. There are `levels` depths left at which a piece may be read, this one
included, and each step uses one up. -/
def readAt (maxDepth : Nat) : (levels depth : Nat) → Text → Logged Expression
  | 0, _, _ => .fail (.tooDeep maxDepth)
  | levels + 1, depth, t =>
    match Plan.of t with
    | .settled result => ⟨[], result⟩
    | .unwrap remark inner =>
      (readAt maxDepth levels (depth + 1) inner).after (.step depth remark)
    | .split remark op parts =>
      ((Logged.each (readAt maxDepth levels (depth + 1)) parts).map (Expression.combine op)).after
        (.step depth remark)

/-- Adds the entry for a text that could not be read. -/
def Logged.closed (input : Text) (x : Logged Expression) : Logged Expression :=
  match x.result with
  | .ok _ => x
  | .error fault => ⟨x.log ++ [.rejected input fault], x.result⟩

/-- Reads a text. One that is too long is not looked at, and nothing is logged about it. -/
def read (limits : Limits) (input : Text) : Logged Expression :=
  let bytes := Text.byteSize input
  if limits.maxBytes < bytes then .fail (.tooLong bytes limits.maxBytes)
  else (readAt limits.maxDepth (limits.maxDepth + 1) 0 input).closed input

/-- The expression that a text stands for, under the default limits. -/
def parse (input : Text) : Except Fault Expression :=
  (read {} input).result

def parse? : Option Text → Except Fault Expression
  | some input => parse input
  | none => .error .missing

/-- The text of the canonical form of what a text stands for. -/
def canonicalText (input : Text) : Except Fault Text :=
  (parse input).map Expression.render

end ChoiceLogic.Reading
