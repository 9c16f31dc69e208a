import RowLang.Code.Basic
import RowLang.Expr.Postorder
import RowLang.Statement.Form

/-! A program under construction. Statements are tried: what a trial does to the code and the
tables is undone if it is rejected, while its diagnostics stay. -/

namespace RowLang

/-- Code and tables so far, the former types of names whose type was changed (the last change
first), the diagnostics so far (the newest first), and the number of loops around the current
statement. -/
structure Draft where
  tables : Tables
  code : Code := []
  journal : List (Nat × ValueType) := []
  diagnostics : List Diagnostic := []
  depth : Nat := 0

namespace Draft

def emit (d : Draft) (records : Code) : Draft :=
  { d with code := d.code ++ records }

def resolve (d : Draft) (l : Lexeme) : Draft × Option Nat :=
  match l.link with
  | some index => (d, some index)
  | none =>
    let (tables, index) := d.tables.internLexeme l
    ({ d with tables }, index)

def pushMark (d : Draft) : Draft × Nat :=
  let (identifiers, index) := d.tables.identifiers.pushMark
  ({ d with tables := { d.tables with identifiers } }, index)

def internValue (d : Draft) (v : Literal) : Draft × Nat :=
  let (constants, index) := d.tables.constants.intern v
  ({ d with tables := { d.tables with constants } }, index)

def setType (d : Draft) (index : Nat) (type : ValueType) : Draft :=
  match d.tables.identifiers.get? index with
  | none => d
  | some entry =>
    { d with
      tables := { d.tables with identifiers := d.tables.identifiers.setType index type }
      journal := (index, entry.type) :: d.journal }

def emitItem (d : Draft) : Item → Draft
  | .operator op row => d.emit [.op row op]
  | .operand l =>
    match d.resolve l with
    | (d', none) => d'
    | (d', some index) =>
      d'.emit [if l.isConstant then .constant l.row index else .identifier l.row index]

def emitExpr (d : Draft) (lexemes : List Lexeme) : Draft :=
  (postorder lexemes).foldl emitItem d

def complain (d : Draft) (cause : Cause) (lexemes : List Lexeme) : Draft :=
  { d with diagnostics := ⟨cause.rule, some cause.detail, lexemes, d.depth⟩ :: d.diagnostics }

/-- Goes back to the code and the tables of an earlier draft: later records and entries are
dropped, and types are restored from the journal, the last change first. -/
def rollback (d : Draft) (earlier : Draft) : Draft :=
  let changes := d.journal.take (d.journal.length - earlier.journal.length)
  let identifiers := changes.foldl (fun t (index, type) => t.setType index type)
    (d.tables.identifiers.truncate earlier.tables.identifiers.size)
  { d with
    code := d.code.take earlier.code.length
    tables := { constants := d.tables.constants.truncate earlier.tables.constants.size, identifiers }
    journal := d.journal.drop (d.journal.length - earlier.journal.length) }

end Draft

abbrev Trial := Draft → Draft × Bool

namespace Trial

def attempt (trial : Trial) : Trial := fun d =>
  match trial d with
  | (d', true) => (d', true)
  | (d', false) => (d'.rollback d, false)

def firstOf : List Trial → Trial
  | [], d => (d, false)
  | trial :: trials, d =>
    match trial.attempt d with
    | (d', true) => (d', true)
    | (d', false) => firstOf trials d'

def ofReading {α : Type} (lexemes : List Lexeme) (reading : Reading α) (lower : α → Draft → Draft) :
    Trial := fun d =>
  match reading with
  | .other => (d, false)
  | .wrong cause => (d.complain cause lexemes, false)
  | .form value => (lower value d, true)

end Trial
end RowLang
