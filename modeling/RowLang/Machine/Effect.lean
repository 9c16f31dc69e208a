import RowLang.Machine.Fault

/-! What operators do with values and tables. A failure changes nothing. -/

namespace RowLang

def Literal.toNumber (op : Operator) (v : Literal) : Except Fault Float :=
  match v with
  | number x => .ok x
  | _ => .error (.typeMismatch op .number v.type)

namespace BinaryOp

def equal (op : BinaryOp) (a b : Literal) : Except Fault Bool :=
  if a.type = b.type then .ok (a.same b)
  else .error (.typeMismatch (.binary op) a.type b.type)

def onNumbers (op : BinaryOp) (f : Float → Float → Literal) (a b : Literal) :
    Except Fault Literal := do
  let x ← a.toNumber (.binary op)
  let y ← b.toNumber (.binary op)
  return f x y

def apply (op : BinaryOp) (a b : Literal) : Except Fault Literal :=
  match op with
  | eq => (equal op a b).map .boolean
  | neq => (equal op a b).map fun same => .boolean (!same)
  | add => onNumbers op (fun x y => .number (x + y)) a b
  | subtract => onNumbers op (fun x y => .number (x - y)) a b
  | mult => onNumbers op (fun x y => .number (x * y)) a b
  | divide => onNumbers op (fun x y => .number (x / y)) a b
  | pow => onNumbers op (fun x y => .number (x.pow y)) a b
  | gt => onNumbers op (fun x y => .boolean (y < x)) a b
  | gte => onNumbers op (fun x y => .boolean (y ≤ x)) a b
  | lt => onNumbers op (fun x y => .boolean (x < y)) a b
  | lte => onNumbers op (fun x y => .boolean (x ≤ y)) a b

end BinaryOp

namespace Tables

def identifier (t : Tables) (index : Nat) : Except Fault Identifier :=
  match t.identifiers.get? index with
  | some entry => .ok entry
  | none => .error (.invalidReference (.identifier index))

def resolve (t : Tables) : Ref → Except Fault Literal
  | .constant index =>
    match t.constants.get? index with
    | some c => .ok c.value
    | none => .error (.invalidReference (.constant index))
  | .identifier index => do
    let entry ← t.identifier index
    match entry.binding with
    | .value v => .ok v
    | _ => .error (.uninitialized entry.name)

def define (t : Tables) (word : Declarator) (index : Nat) : Except Fault Tables := do
  let entry ← t.identifier index
  match entry.binding with
  | .undef =>
    let identifiers := t.identifiers.setBinding index .defined
    .ok { t with
      identifiers := if word = .var then identifiers.setModifiable index true else identifiers }
  | _ => .error (.redefined entry.name)

/-- Whether a name may be given a value now: it has to be defined, and to be modifiable if it has
a value already. -/
def assignable (entry : Identifier) : Except Fault Unit :=
  match entry.binding with
  | .undef => .error (.uninitialized entry.name)
  | .defined => .ok ()
  | .value _ => if entry.modifiable then .ok () else .error (.notModifiable entry.name)

def assign (t : Tables) (target : Nat) (value : Ref) : Except Fault Tables := do
  let entry ← t.identifier target
  assignable entry
  let v ← t.resolve value
  if v.type = entry.type then
    .ok { t with identifiers := t.identifiers.setBinding target (.value v) }
  else .error (.typeMismatch .assign entry.type v.type)

end Tables

def jumpTarget (code : Code) (t : Tables) (mark : Nat) : Except Fault Nat := do
  let entry ← t.identifier mark
  if entry.type = .mark then
    match code.labelEnd? mark with
    | some position => .ok position
    | none => .error (.labelNotFound entry.name)
  else .error (.unknownMark entry.name)

end RowLang
