import RowLang.Machine.Effect

/-! The stack machine. It executes record after record. A record that fails takes its operands off
the stack and changes no table, and the machine can go on behind it. -/

namespace RowLang

/-- A machine: its program, its tables, the operands (the last first), the position of the next
record, the number of records executed, and a limit to that number. -/
structure Machine where
  code : Code
  tables : Tables
  stack : List Ref := []
  cursor : Nat := 0
  steps : Nat := 0
  limit : Option Nat := none

namespace Machine

def withLimit (m : Machine) (limit : Option Nat) : Machine := { m with limit }

abbrev Action := EStateM Fault Machine

def check {α : Type} (result : Machine → Except Fault α) : Action α := fun m =>
  match result m with
  | .ok a => .ok a m
  | .error fault => .error fault m

def push (ref : Ref) : Action Unit := fun m =>
  .ok () { m with stack := ref :: m.stack }

def pushValue (v : Literal) : Action Unit := fun m =>
  let (constants, index) := m.tables.constants.intern v
  .ok () { m with
    tables := { m.tables with constants }
    stack := .constant index :: m.stack }

def pop (op : Operator) : Action Ref := fun m =>
  match m.stack with
  | [] => .error (.stackUnderflow op) m
  | ref :: stack => .ok ref { m with stack }

def popIdentifier (op : Operator) : Action Nat := do
  match ← pop op with
  | .identifier index => return index
  | .constant _ => throw (.notAnIdentifier op)

def jump (mark : Nat) : Action Unit := do
  let position ← check fun m => jumpTarget m.code m.tables mark
  modify fun m => { m with cursor := position, stack := [] }

def apply (op : Operator) : Action Unit := do
  match op with
  | .negate =>
    let ref ← pop op
    let x ← check fun m => do (← m.tables.resolve ref).toNumber op
    pushValue (.number (-x))
  | .define word =>
    let index ← popIdentifier op
    let tables ← check fun m => m.tables.define word index
    modify fun m => { m with tables }
    push (.identifier index)
  | .goto => jump (← popIdentifier op)
  | .label => discard (pop op)
  | .branch =>
    let mark ← popIdentifier op
    let ref ← pop op
    match ← check fun m => m.tables.resolve ref with
    | .boolean true => return
    | .boolean false => jump mark
    | v => throw (.typeMismatch op .boolean v.type)
  | .assign =>
    let value ← pop op
    let target ← popIdentifier op
    let tables ← check fun m => m.tables.assign target value
    modify fun m => { m with tables }
  | .binary binary =>
    let right ← pop op
    let left ← pop op
    let v ← check fun m => do
      let a ← m.tables.resolve left
      let b ← m.tables.resolve right
      binary.apply a b
    pushValue v

def execute : Instr → Action Unit
  | .push ref => push ref
  | .apply op => apply op

inductive Status where
  | finished
  | failed (error : Located Fault)
  | running
deriving DecidableEq, Repr

def advance (m : Machine) : Status × Machine :=
  match m.code[m.cursor]? with
  | none => (.finished, m)
  | some record =>
    if m.limit.any (· ≤ m.steps) then (.failed ⟨.stepLimitExceeded m.steps, record.row⟩, m)
    else
      match execute record.instr { m with cursor := m.cursor + 1, steps := m.steps + 1 } with
      | .ok _ m' => (.running, m')
      | .error fault m' => (.failed ⟨fault, record.row⟩, m')

def run : Nat → Machine → Status × Machine
  | 0, m => (.running, m)
  | fuel + 1, m =>
    match m.advance with
    | (.running, m') => run fuel m'
    | stopped => stopped

end Machine
end RowLang
