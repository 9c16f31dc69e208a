import RowLang.Decimal.Reader
import RowLang.Vocabulary

/-! The options of the command. Arguments are taken from left to right, and the first fault ends
the reading. The value of an option may stand behind an equals sign or be the next argument; such
a value, like the file name, is looked at when the next argument is known to be valid. -/

namespace RowLang.CommandLine

inductive Emit where
  | lexemes
  | tables
  | rpn
deriving DecidableEq, Repr

instance : Vocabulary Emit where
  words := [.lexemes, .tables, .rpn]
  spelling
    | .lexemes => "lexemes"
    | .tables => "tables"
    | .rpn => "rpn"

inductive LogLevel where
  | off
  | error
  | info
  | debug
  | trace
deriving DecidableEq, Repr

instance : Vocabulary LogLevel where
  words := [.off, .error, .info, .debug, .trace]
  spelling
    | .off => "off"
    | .error => "error"
    | .info => "info"
    | .debug => "debug"
    | .trace => "trace"

/-- Why the arguments give no options. Asking for help or for the version does not either. -/
inductive UsageError where
  | missingFile
  | unknownArgument
  | conflict
  | invalidValue
  | badNumber
  | surplusValue
  | helpAsked
  | versionAsked
deriving DecidableEq, Repr

def UsageError.message : UsageError → String
  | missingFile => "error: a source file is required"
  | unknownArgument => "error: unexpected argument"
  | conflict => "error: an argument is repeated or conflicts with another one"
  | invalidValue => "error: a value is missing or not one of the possible values"
  | badNumber => "error: a number is out of range"
  | surplusValue => "error: an argument takes no value"
  | helpAsked | versionAsked => ""

structure Options where
  file : String
  emit : List Emit
  check : Bool
  stepLimit : Option Nat
  lenient : Bool
  logLevel : LogLevel
deriving DecidableEq, Repr

inductive Slot where
  | file
  | emit
  | stepLimit
deriving DecidableEq, Repr

/-- What was read so far. A slot with the value it was given, if any, may be pending. -/
structure Draft where
  file : Option String := none
  emit : List Emit := []
  check : Bool := false
  stepLimit : Option Nat := none
  lenient : Bool := false
  verbose : Nat := 0
  quiet : Nat := 0
  pending : Option (Slot × Option String) := none
  named : Bool := false
  /-- Only file names may follow. -/
  trailing : Bool := false

/-- Reads a number of steps: digits, possibly after a plus sign, below the size of a word. -/
def readSteps? (text : String) : Option Nat :=
  let digits : List Char :=
    match text.toList with
    | '+' :: s => s
    | s => s
  let value := Decimal.valueOf digits
  if digits ≠ [] ∧ digits.all Char.isDigit ∧ value < UInt64.size then some value else none

namespace Draft

def fill (d : Draft) (slot : Slot) (value : Option String) : Except UsageError Draft :=
  match slot, value with
  | _, none => .error .invalidValue
  | .file, some text =>
    if text = "" then .error .invalidValue else .ok { d with file := some text }
  | .emit, some text =>
    match Vocabulary.read? text with
    | some emit => .ok { d with emit := d.emit ++ [emit] }
    | none => .error .invalidValue
  | .stepLimit, some text =>
    if d.stepLimit.isSome then .error .conflict
    else match readSteps? text with
      | some steps => .ok { d with stepLimit := some steps }
      | none => .error .badNumber

def settle (d : Draft) : Except UsageError Draft :=
  match d.pending with
  | none => .ok d
  | some (slot, value) => { d with pending := none }.fill slot value

def option (d : Draft) (slot : Slot) (attached : Option String) : Except UsageError Draft := do
  let d ← d.settle
  match attached with
  | some text => d.fill slot (some text)
  | none => .ok { d with pending := some (slot, none) }

def flag (d : Draft) (attached : Option String) (set : Draft → Except UsageError Draft) :
    Except UsageError Draft :=
  match attached with
  | some _ => .error .surplusValue
  | none => d.settle >>= set

def long (d : Draft) (name : String) (attached : Option String) : Except UsageError Draft :=
  match name with
  | "emit" => d.option .emit attached
  | "step-limit" => d.option .stepLimit attached
  | "check" => d.flag attached fun d =>
    if d.check then .error .conflict else .ok { d with check := true }
  | "lenient" => d.flag attached fun d =>
    if d.lenient then .error .conflict else .ok { d with lenient := true }
  | "help" => d.flag attached fun _ => .error .helpAsked
  | "version" => d.flag attached fun _ => .error .versionAsked
  | _ => .error .unknownArgument

def short (d : Draft) : List Char → Except UsageError Draft
  | [] => .ok d
  | c :: cs => do
    let d ← match c with
      | 'v' => d.flag none fun d =>
        if d.verbose < 2 then .ok { d with verbose := d.verbose + 1 } else .error .badNumber
      | 'q' => d.flag none fun d =>
        if d.quiet < 2 then .ok { d with quiet := d.quiet + 1 } else .error .badNumber
      | 'h' => d.flag none fun _ => .error .helpAsked
      | 'V' => d.flag none fun _ => .error .versionAsked
      | _ => .error .unknownArgument
    d.short cs

def positional (d : Draft) (text : String) : Except UsageError Draft :=
  if d.named then .error .unknownArgument
  else do
    let d ← d.settle
    .ok { d with pending := some (.file, some text), named := true }

def splitValue (s : List Char) : String × Option String :=
  match s.dropWhile (· != '=') with
  | [] => (String.ofList s, none)
  | _ :: value => (String.ofList (s.takeWhile (· != '=')), some (String.ofList value))

def take (d : Draft) (argument : String) : Except UsageError Draft :=
  if d.trailing then d.positional argument
  else match argument.toList with
    | ['-', '-'] => .ok { d with trailing := true }
    | '-' :: '-' :: s => let (name, attached) := splitValue s; d.long name attached
    | '-' :: c :: cs => d.short (c :: cs)
    | _ =>
      match d.pending with
      | some (slot, none) => .ok { d with pending := some (slot, some argument) }
      | _ => d.positional argument

def logLevel (d : Draft) : LogLevel :=
  match d.verbose, d.quiet with
  | 0, 0 => .info
  | 0, 1 => .error
  | 0, _ => .off
  | 1, _ => .debug
  | _, _ => .trace

/-- Ends the reading. A limit from the environment counts if no argument gave one. -/
def finish (d : Draft) (environment : Option String) : Except UsageError Options := do
  let d ← d.settle
  let d ← match d.stepLimit, environment with
    | none, some text => d.fill .stepLimit (some text)
    | _, _ => .ok d
  if 0 < d.verbose ∧ 0 < d.quiet then .error .conflict
  else match d.file with
    | none => .error .missingFile
    | some file => .ok {
        file, emit := d.emit, check := d.check, stepLimit := d.stepLimit, lenient := d.lenient,
        logLevel := d.logLevel }

end Draft

def Options.read (arguments : List String) (environment : Option String) :
    Except UsageError Options := do
  let d ← arguments.foldlM Draft.take {}
  d.finish environment

end RowLang.CommandLine
