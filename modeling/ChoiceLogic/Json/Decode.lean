import ChoiceLogic.Json.Value
import ChoiceLogic.Reading.Basic

/-! # Settings as JSON

Operators and limits of reading, read from JSON values.
-/

namespace ChoiceLogic

/-- A number of at most 64 bits that is written with digits alone. -/
def Json.natural? : Json → Option Nat
  | .number written =>
    if written.all Char.isDigit then
      let n := written.foldl (fun n d => 10 * n + (d.toNat - '0'.toNat)) 0
      if n < UInt64.size then some n else none
    else none
  | _ => none

def Operator.ofName? (name : Text) : Option Operator :=
  [Operator.and, Operator.or].find? (·.name = name)

/-- An operator is its name in upper case, alone or as the one member of an object, with null. -/
def Operator.ofJson? : Json → Option Operator
  | .string s => s.text?.bind ofName?
  | .object [(s, .null)] => s.text?.bind ofName?
  | _ => none

namespace Reading.Limits

/-- The value of a limit among members of an object. A limit may be left out, and none may occur
twice. -/
def find? (name : String) (standard : Nat) (members : List (Text × Json)) : Option Nat :=
  match members.filter (·.1 = name.toList) with
  | [] => some standard
  | [(_, v)] => v.natural?
  | _ => none

/-- Limits are an object, whose members of other names do not count, or an array of the two limits,
which may stop early. -/
def ofJson? : Json → Option Limits
  | .array [] => some {}
  | .array [depth] => do
    some ⟨← depth.natural?, ({} : Limits).maxBytes⟩
  | .array [depth, bytes] => do
    some ⟨← depth.natural?, ← bytes.natural?⟩
  | .object members => do
    let members ← members.mapM fun (name, v) => name.text?.map (·, v)
    let depth ← find? "maxDepth" ({} : Limits).maxDepth members
    let bytes ← find? "maxInputLen" ({} : Limits).maxBytes members
    some ⟨depth, bytes⟩
  | _ => none

end Reading.Limits

end ChoiceLogic
