import RowLang.CommandLine.Options
import RowLang.Listing
import RowLang.Pipeline

/-! What the command does: its exit code and what it writes. -/

namespace RowLang.CommandLine

structure Report where
  exit : Nat
  stdout : String := ""
  stderr : String := ""
deriving DecidableEq, Repr

namespace LogLevel

def showsErrors (level : LogLevel) : Bool := level != off

def showsWarnings (level : LogLevel) : Bool := level != off && level != error

end LogLevel

def version : String := "l1c_cli 0.0.0"

def help : String :=
  Listing.lines
    ["Checks and runs L1 programs", "", "Usage: l1c [OPTIONS] <source file>", "", "Arguments:",
      "  <source file>  The source file to run", "", "Options:",
      "  -v...                          Logs more, use twice for tracing",
      "  -q...                          Logs less, use twice to turn logging off",
      "      --emit <EMIT>              Print an intermediate listing before running, can be used " ++
        "multiple times [possible values: lexemes, tables, rpn]",
      "      --check                    Only check the syntax, without running the program",
      "      --step-limit <STEP_LIMIT>  Abort runs that execute more than this many records " ++
        "[env: L1C_STEP_LIMIT=]",
      "      --lenient                  Drop unidentified lexemes instead of failing",
      "  -h, --help                     Print help",
      "  -V, --version                  Print version"]

def UsageError.report : UsageError → Report
  | helpAsked => { exit := 0, stdout := help }
  | versionAsked => { exit := 0, stdout := Listing.lines [version] }
  | error => { exit := 2, stderr := Listing.lines [error.message] }

namespace Options

def warnings (o : Options) (source : String) : List String :=
  let unidentified := (lex source).unidentified
  unidentified.map (fun u => s!" WARN compile:lex: l1_lexing: {u.message}") ++
    if o.lenient ∧ unidentified ≠ [] then
      [s!" WARN compile: l1c::compiler: ignoring {unidentified.length} unidentified lexemes"]
    else []

def failureLines (o : Options) (failure : Failure) : List String :=
  (if o.logLevel.showsErrors then [s!"ERROR l1c: {failure.message}"] else []) ++ [failure.message]

def listings (o : Options) (compiled : Compiled) : String :=
  String.join (o.emit.map fun emit =>
    (match emit with
      | .lexemes => Listing.lexemes compiled.lexemes
      | .tables => Listing.tables compiled.program.tables
      | .rpn => Listing.code compiled.program.code compiled.program.tables) ++
    Listing.lines [Listing.separator])

def runSource (o : Options) (settings : Settings) (fuel : Nat) (source : String) : Option Report :=
  let log := if o.logLevel.showsWarnings then o.warnings source else []
  let failed (stdout : String) (failure : Failure) : Report :=
    { exit := 1, stdout, stderr := Listing.lines (log ++ o.failureLines failure) }
  match settings.compile source with
  | .error failure => some (failed "" failure)
  | .ok compiled =>
    if o.check then
      some { exit := 0, stdout := Listing.lines ["Syntax is correct"], stderr := Listing.lines log }
    else
      (settings.execute fuel compiled).map fun
        | .error failure => failed (o.listings compiled) failure
        | .ok finished =>
          { exit := 0
            stdout := o.listings compiled ++ Listing.identifiers finished.tables.identifiers
            stderr := Listing.lines log }

def report (o : Options) (fuel : Nat) (content : Option ByteArray) : Option Report :=
  match Settings.make o.stepLimit (!o.lenient) with
  | .error error => some { exit := 1, stderr := Listing.lines [s!"Error: {error.message}"] }
  | .ok settings =>
    match readSource content with
    | .error error => some { exit := 1, stderr := Listing.lines [s!"Error: {error.message}"] }
    | .ok source => o.runSource settings fuel source

end Options
end RowLang.CommandLine
