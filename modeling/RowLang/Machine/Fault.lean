import RowLang.Code.Basic

/-! What can go wrong in a run, and the words for it. -/

namespace RowLang

inductive Fault where
  | uninitialized (name : String)
  | redefined (name : String)
  | notModifiable (name : String)
  | typeMismatch (op : Operator) (expected found : ValueType)
  | unknownMark (name : String)
  | labelNotFound (name : String)
  | stackUnderflow (op : Operator)
  | notAnIdentifier (op : Operator)
  | invalidReference (ref : Ref)
  | stepLimitExceeded (steps : Nat)
deriving DecidableEq, Repr

def Fault.message : Fault → String
  | uninitialized name => s!"Variable {Text.quoted name} is used before it was initialized"
  | redefined name => s!"Variable {Text.quoted name} is already defined"
  | notModifiable name => s!"Variable {Text.quoted name} can not be modified"
  | typeMismatch op expected found =>
    s!"Can not {spelling op} on {found.heading}, expected {expected.heading}"
  | unknownMark name => s!"{Text.quoted name} is not a mark"
  | labelNotFound name => s!"No label for mark {Text.quoted name}"
  | stackUnderflow op => s!"No operand on stack for {spelling op}"
  | notAnIdentifier op => s!"{spelling op} expects an identifier"
  | invalidReference ref => s!"No table entry for {ref.summary}"
  | stepLimitExceeded steps => s!"Step limit of {steps} exceeded"

structure Located (α : Type) where
  cause : α
  row : Option Nat
deriving DecidableEq, Repr

def Located.message {α : Type} (words : α → String) (e : Located α) : String :=
  match e.row with
  | some row => s!"Row {row}: {words e.cause}"
  | none => words e.cause

end RowLang
