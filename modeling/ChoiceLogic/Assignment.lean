import ChoiceLogic.Text.Blank

/-! # Assignments

An assignment is one configuration choice: an option family and the value chosen for it, as in
`topping = salami`.
-/

namespace ChoiceLogic

structure Assignment where
  family : Text
  value : Text
  family_trimmed : Text.Trimmed family
  value_trimmed : Text.Trimmed value
  deriving DecidableEq

namespace Assignment

/-- The part that is missing when two texts make no assignment. -/
inductive Fault where
  | emptyFamily
  | emptyValue
  deriving Repr, DecidableEq

def Fault.message : Fault → Text
  | .emptyFamily => "option family must not be empty".toList
  | .emptyValue => "option value must not be empty".toList

/-- The assignment with these parts, trimmed. The family is looked at first. -/
def ofParts (family value : Text) : Except Fault Assignment :=
  if hf : Text.trim family = [] then .error .emptyFamily
  else if hv : Text.trim value = [] then .error .emptyValue
  else .ok ⟨Text.trim family, Text.trim value, Text.trimmed_trim hf, Text.trimmed_trim hv⟩

theorem ofParts_family_value (a : Assignment) : ofParts a.family a.value = .ok a := by
  obtain ⟨family, value, ⟨hf, tf⟩, ⟨hv, tv⟩⟩ := a
  simp [ofParts, tf, tv, hf, hv]

/-- What stands between a family and its value. -/
def sign : Text := [' ', '=', ' ']

def render (a : Assignment) : Text :=
  a.family ++ sign ++ a.value

/-- The two assignments have the same family or the same value. -/
def sharesPart (a b : Assignment) : Bool :=
  a.family == b.family || a.value == b.value

@[ext] theorem ext_parts {a b : Assignment} (hf : a.family = b.family) (hv : a.value = b.value) :
    a = b := by
  cases a
  cases b
  simp_all

end Assignment

end ChoiceLogic
