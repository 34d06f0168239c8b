import ChoiceLogic.Expression.Outline
import ChoiceLogic.Json.Compact
import ChoiceLogic.Reading.Basic

/-! # The command line

Each argument is an expression. Its canonical text, its key and its families are reported, or what
is wrong with it.
-/

namespace ChoiceLogic.CommandLine

/-- What is written for one argument to the output and to the error output. -/
structure Report where
  output : Text
  errors : Text
  deriving Repr, DecidableEq

/-- The arguments, or an example when there are none. -/
def orExample : List Text → List Text
  | [] =>
    ["topping = salami AND (base = tomato ketchup OR base = sauce hollandaise)".toList]
  | arguments => arguments

def describe (e : Expression) : Text :=
  let families := [',', ' '].intercalate (e.families.map Text.quoted)
  "canonical=".toList ++ e.render ++ "\nhash=".toList ++ e.key ++
    "\nfamilies=[".toList ++ families ++ "]\n".toList

def report (argument : Text) : Report :=
  match Reading.parse argument with
  | .ok e => ⟨describe e, []⟩
  | .error fault => ⟨[], Text.quoted argument ++ ": ".toList ++ fault.message ++ ['\n']⟩

/-- The reports on all arguments. None of them changes the exit code, which is zero. -/
def run (arguments : List Text) : List Report :=
  (orExample arguments).map report

end ChoiceLogic.CommandLine
