import RuleNetwork.CommandLine.Report

/-!
# The program

Runs the command line and prints what it leaves behind.  The author is taken from the environment.
-/

/-- Runs a command line. -/
def main (arguments : List String) : IO UInt32 := do
  let author ← IO.getEnv "AUTHOR"
  let outcome := RuleNetwork.CommandLine.run arguments author
  IO.print outcome.stdout
  IO.eprint outcome.stderr
  return outcome.code
