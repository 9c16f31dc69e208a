import RowLang.Lexeme.Basic

/-! The operators of reverse Polish code. -/

namespace RowLang

inductive BinaryOp where
  | add
  | subtract
  | mult
  | divide
  | pow
  | eq
  | neq
  | gt
  | gte
  | lt
  | lte
deriving DecidableEq, Repr

/-- An operator. `negate` is the sign in front of an operand, `define` introduces a name, `goto`
jumps to a mark, `branch` jumps to a mark unless a condition holds, and `label` places a mark. -/
inductive Operator where
  | negate
  | binary (op : BinaryOp)
  | assign
  | define (word : Declarator)
  | goto
  | branch
  | label
deriving DecidableEq, Repr

instance : Vocabulary BinaryOp where
  words := [.add, .subtract, .mult, .divide, .pow, .eq, .neq, .gt, .gte, .lt, .lte]
  spelling
    | .add => "+"
    | .subtract => "-"
    | .mult => "*"
    | .divide => "/"
    | .pow => "^"
    | .eq => "=="
    | .neq => "!="
    | .gt => ">"
    | .gte => ">="
    | .lt => "<"
    | .lte => "<="

instance : Vocabulary Operator where
  words := [.negate] ++ Vocabulary.words.map .binary ++ [.assign] ++
    Vocabulary.words.map .define ++ [.goto, .branch, .label]
  spelling
    | .negate => "@"
    | .binary op => spelling op
    | .assign => "="
    | .define word => spelling word
    | .goto => "goto"
    | .branch => "if"
    | .label => ":"

namespace BinaryOp

def name : BinaryOp → String
  | add => "Add"
  | subtract => "Subtract"
  | mult => "Mult"
  | divide => "Divide"
  | pow => "Pow"
  | eq => "Eq"
  | neq => "Neq"
  | gt => "Gt"
  | gte => "Gte"
  | lt => "Lt"
  | lte => "Lte"

def priority : BinaryOp → Nat
  | eq | neq | gt | gte | lt | lte => 3
  | add | subtract => 4
  | mult | divide => 5
  | pow => 6

def ofAddSign : AddSign → BinaryOp
  | .plus => add
  | .minus => subtract

def ofMultSign : MultSign → BinaryOp
  | .star => mult
  | .slash => divide

def ofRelSign : RelSign → BinaryOp
  | .gte => gte
  | .lte => lte
  | .eq => eq
  | .neq => neq
  | .gt => gt
  | .lt => lt

end BinaryOp

namespace Operator

def name : Operator → String
  | negate => "Negate"
  | binary op => op.name
  | assign => "Assign"
  | define .val => "Val"
  | define .var => "Var"
  | goto => "Goto"
  | branch => "If"
  | label => "Label"

def priority? : Operator → Option Nat
  | assign => some 2
  | binary op => some op.priority
  | negate => some 7
  | define _ => some 8
  | goto | branch | label => none

def isUnary : Operator → Bool
  | negate | define _ | goto | label => true
  | binary _ | assign | branch => false

def ofKind? : Kind → Option Operator
  | .declaration word => some (define word)
  | .assign => some assign
  | .addOp sign => some (binary (.ofAddSign sign))
  | .multOp sign => some (binary (.ofMultSign sign))
  | .powOp => some (binary .pow)
  | .relOp sign => some (binary (.ofRelSign sign))
  | _ => none

end Operator
end RowLang
