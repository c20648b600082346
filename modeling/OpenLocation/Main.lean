import OpenLocation.CommandLine.Arguments

/-!
# The program

Hands the arguments to the library and prints what it answers.
-/

def main (arguments : List String) : IO UInt32 := do
  let outcome := OpenLocation.Outcome.ofArguments (arguments.map String.toList)
  let line := String.ofList outcome.errorLine
  unless line.isEmpty do
    (← IO.getStderr).putStrLn line
  (← IO.getStdout).putStr (String.ofList outcome.output)
  return outcome.exitCode.toUInt32
