import RowLang.Lexeme.Source
import RowLang.Machine.Basic
import RowLang.Statement.Parser

/-! From source text to the end of a run. -/

namespace RowLang

structure Settings where
  stepLimit : Option Nat := none
  strict : Bool := true
deriving DecidableEq, Repr

inductive SettingsError where
  | zeroStepLimit
deriving DecidableEq, Repr

def SettingsError.message : SettingsError → String
  | zeroStepLimit => "Programs can't run if no steps are allowed"

def Settings.make (stepLimit : Option Nat) (strict : Bool) : Except SettingsError Settings :=
  if stepLimit = some 0 then .error .zeroStepLimit else .ok { stepLimit, strict }

inductive ReadError where
  | missing
  | notText
deriving DecidableEq, Repr

def ReadError.message : ReadError → String
  | missing => "No such file or directory (os error 2)"
  | notText => "stream did not contain valid UTF-8"

def readSource (content : Option ByteArray) : Except ReadError String :=
  match content with
  | none => .error .missing
  | some bytes =>
    match String.fromUTF8? bytes with
    | some text => .ok text
    | none => .error .notText

inductive Failure where
  | read (error : ReadError)
  | lex (unidentified : List Unidentified)
  | syntactic (error : SyntaxError)
  | runtime (error : Located Fault)

def Failure.message : Failure → String
  | read error => error.message
  | lex unidentified => Text.joinWith "\n" (unidentified.map Unidentified.message)
  | syntactic error => error.message
  | runtime error => error.message Fault.message

structure Compiled where
  lexemes : List Lexeme
  unidentified : List Unidentified
  program : Program

structure Finished where
  compiled : Compiled
  tables : Tables
  steps : Nat

namespace Settings

def compile (s : Settings) (source : String) : Except Failure Compiled :=
  let lexed := lex source
  if s.strict ∧ lexed.unidentified ≠ [] then .error (.lex lexed.unidentified)
  else
    match parse lexed.lexemes lexed.tables with
    | .ok program => .ok { lexemes := lexed.lexemes, unidentified := lexed.unidentified, program }
    | .error error => .error (.syntactic error)

def load (s : Settings) (program : Program) : Machine :=
  { code := program.code, tables := program.tables, limit := s.stepLimit }

/-- Runs a compiled program for at most `fuel` records; none if it has not stopped by then. -/
def execute (s : Settings) (fuel : Nat) (compiled : Compiled) : Option (Except Failure Finished) :=
  match (s.load compiled.program).run fuel with
  | (.finished, m) => some (.ok { compiled, tables := m.tables, steps := m.steps })
  | (.failed error, _) => some (.error (.runtime error))
  | (.running, _) => none

def run (s : Settings) (fuel : Nat) (source : String) : Option (Except Failure Finished) :=
  match s.compile source with
  | .ok compiled => s.execute fuel compiled
  | .error failure => some (.error failure)

def compileFile (s : Settings) (content : Option ByteArray) : Except Failure Compiled :=
  match readSource content with
  | .ok source => s.compile source
  | .error error => .error (.read error)

def runFile (s : Settings) (fuel : Nat) (content : Option ByteArray) :
    Option (Except Failure Finished) :=
  match readSource content with
  | .ok source => s.run fuel source
  | .error error => some (.error (.read error))

end Settings
end RowLang
