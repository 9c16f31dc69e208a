import RowLang.Operator

/-! Expressions in postorder, by the shunting-yard rule: operands go straight to the output, and an
operator waits until one that binds no tighter, a closing bracket or the end comes. -/

namespace RowLang

inductive Item where
  | operand (lexeme : Lexeme)
  | operator (op : Operator) (row : Nat)
deriving DecidableEq, Repr

namespace Postorder

inductive Waiting where
  | opening
  | operator (op : Operator) (row : Nat)
deriving DecidableEq, Repr

/-- The yard: what waits, the last first, and whether an operand came last. -/
structure Yard where
  waiting : List Waiting := []
  afterOperand : Bool := false

def release : List Waiting → List Item × List Waiting
  | [] => ([], [])
  | .opening :: ws => ([], ws)
  | .operator op row :: ws => let (items, rest) := release ws; (.operator op row :: items, rest)

def releaseAbove (priority : Nat) : List Waiting → List Item × List Waiting
  | .operator op row :: ws =>
    if op.priority?.getD 0 < priority then ([], .operator op row :: ws)
    else let (items, rest) := releaseAbove priority ws; (.operator op row :: items, rest)
  | ws => ([], ws)

def releaseAll : List Waiting → List Item
  | [] => []
  | .opening :: ws => releaseAll ws
  | .operator op row :: ws => .operator op row :: releaseAll ws

/-- Takes one lexeme. Where no operand came before, a minus negates and a plus is dropped; what
has no operator is passed over. -/
def shunt (yard : Yard) (l : Lexeme) : List Item × Yard :=
  match l.kind with
  | .identifier | .constant => ([.operand l], { yard with afterOperand := true })
  | .bracket .opening => ([], ⟨.opening :: yard.waiting, false⟩)
  | .bracket .closing => let (items, waiting) := release yard.waiting; (items, ⟨waiting, true⟩)
  | .declaration word =>
    ([], ⟨.operator (.define word) l.row :: yard.waiting, false⟩)
  | kind =>
    if kind.isAddOp && !yard.afterOperand then
      if kind = .addOp .minus then
        ([], { yard with waiting := .operator .negate l.row :: yard.waiting })
      else ([], yard)
    else
      match Operator.ofKind? kind with
      | none => ([], yard)
      | some op =>
        match op.priority? with
        | none => ([], yard)
        | some priority =>
          let (items, waiting) := releaseAbove priority yard.waiting
          (items, ⟨.operator op l.row :: waiting, false⟩)

def outputFrom (yard : Yard) : List Lexeme → List Item
  | [] => releaseAll yard.waiting
  | l :: ls => let (items, yard') := shunt yard l; items ++ outputFrom yard' ls

end Postorder

def postorder (lexemes : List Lexeme) : List Item :=
  Postorder.outputFrom {} lexemes

end RowLang
