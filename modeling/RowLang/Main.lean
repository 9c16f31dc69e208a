import RowLang.CommandLine.Report

/-! The command. -/

namespace RowLang.CommandLine

def readContent (path : String) : IO (Option ByteArray) := do
  try
    return some (← IO.FS.readBinFile path)
  catch _ =>
    return none

/-- Runs without an end of their own are given this many records, more than a machine gets
through. -/
def recordBudget : Nat := 1 <<< 62

def reportOn (arguments : List String) : IO (Option Report) := do
  match Options.read arguments (← IO.getEnv "L1C_STEP_LIMIT") with
  | .error error => return error.report
  | .ok options => return options.report recordBudget (← readContent options.file)

end RowLang.CommandLine

def main (arguments : List String) : IO UInt32 := do
  match ← RowLang.CommandLine.reportOn arguments with
  | none => return 1
  | some report =>
    IO.print report.stdout
    IO.eprint report.stderr
    return report.exit.toUInt32
