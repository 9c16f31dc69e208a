import RowLang.Operator
import RowLang.Table.Tables

/-! Reverse Polish code: a list of records, each an instruction and the row it was made for. -/

namespace RowLang

/-- A reference to a table entry. It may dangle. -/
inductive Ref where
  | constant (index : Nat)
  | identifier (index : Nat)
deriving DecidableEq, Repr

inductive Instr where
  | push (ref : Ref)
  | apply (op : Operator)
deriving DecidableEq, Repr

structure Record where
  row : Nat
  instr : Instr
deriving DecidableEq, Repr

abbrev Code := List Record

namespace Ref

def summary : Ref → String
  | constant n => s!"Constant({n})"
  | identifier n => s!"Identifier({n})"

def text (tables : Tables) : Ref → String
  | constant n => ((tables.constants.get? n).map Constant.text).getD s!"#c{n}"
  | identifier n => ((tables.identifiers.get? n).map Identifier.name).getD s!"#i{n}"

end Ref

namespace Instr

def summary : Instr → String
  | push r => r.summary
  | apply op => s!"Op({op.name})"

def text (tables : Tables) : Instr → String
  | push r => r.text tables
  | apply op => spelling op

def operator? : Instr → Option Operator
  | push _ => none
  | apply op => some op

end Instr

namespace Record

def constant (row index : Nat) : Record := ⟨row, .push (.constant index)⟩

def identifier (row index : Nat) : Record := ⟨row, .push (.identifier index)⟩

def op (row : Nat) (o : Operator) : Record := ⟨row, .apply o⟩

end Record

namespace Code

def text (code : Code) (tables : Tables) : String :=
  Text.joinWith " " (code.map fun r => r.instr.text tables)

def summary (code : Code) : String :=
  "[" ++ Text.joinWith ", " (code.map fun r => r.instr.summary) ++ "]"

/-- The position right behind the first place where the mark is directly followed by a label
operator. -/
def labelEnd? (mark : Nat) : Code → Option Nat
  | a :: b :: rest =>
    if a.instr = .push (.identifier mark) ∧ b.instr = .apply .label then some 2
    else (labelEnd? mark (b :: rest)).map (· + 1)
  | _ => none

def splitAt? (code : Code) (position : Nat) : Option (Code × Code) :=
  if position ≤ code.length then some (code.take position, code.drop position) else none

/-- The line of one record: its position, its row unless the record before it has the same, and
its instruction. -/
def listRecord? (code : Code) (tables : Tables) (position : Nat) : Option String :=
  code[position]?.map fun record =>
    let before := if position = 0 then none else code[position - 1]?
    let row :=
      if before.map Record.row = some record.row then "   |"
      else Text.padLeft ' ' 4 (Nat.repr record.row)
    let reference (kind : String) (index : Nat) :=
      s!"{Text.padRight 16 kind} #{Text.padRight 6 (Nat.repr index)} // {record.instr.text tables}"
    let instr :=
      match record.instr with
      | .push (.constant n) => reference "constant" n
      | .push (.identifier n) => reference "identifier" n
      | .apply op => spelling op
    let place := Text.padLeft '0' 4 (Nat.repr position)
    s!"{place} {row} {instr}\n"

def listing (code : Code) (tables : Tables) (name : String) : String :=
  s!"== {name} ==\n" ++ String.join ((List.range code.length).filterMap (code.listRecord? tables))

end Code
end RowLang
