import ChoiceLogic.CommandLine

/-! # The program -/

open ChoiceLogic in
def main (arguments : List String) : IO UInt32 := do
  for report in CommandLine.run (arguments.map String.toList) do
    IO.print (String.ofList report.output)
    IO.eprint (String.ofList report.errors)
  return 0
