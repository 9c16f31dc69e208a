import RowLang.Expr.Shape
import RowLang.Statement.Diagnostic

/-! The forms of statements without a body. Reading one looks at the lexemes alone, so whether it
succeeds never depends on the tables. -/

namespace RowLang

/-- The outcome of reading lexemes as a certain form: they do not begin like it, they do and are
wrong, or they have it. -/
inductive Reading (α : Type) where
  | other
  | wrong (cause : Cause)
  | form (value : α)

/-- `(val | var) name [: type] [= expression]` -/
structure Declaration where
  word : Lexeme
  name : Lexeme
  typeWord : Option TypeWord
  tail : List Lexeme

namespace Declaration

def initializer (d : Declaration) : List Lexeme := d.tail.drop 1

def splitTypeWord? : List Lexeme → Option (Option TypeWord × List Lexeme)
  | colon :: rest =>
    if colon.kind = .punct then
      match rest with
      | t :: tail =>
        match t.kind with
        | .type word => some (some word, tail)
        | _ => none
      | [] => none
    else some (none, colon :: rest)
  | [] => some (none, [])

def tailCause? (declarator : Declarator) (typeWord : Option TypeWord) :
    List Lexeme → Option Cause
  | [] =>
    if declarator = .val then some .valUninitialized
    else if typeWord = none then some .varUntyped
    else none
  | sign :: initializer =>
    if sign.kind ≠ .assign then some .assignMissing
    else if isExpression initializer then none
    else some .initializerInvalid

def read : List Lexeme → Reading Declaration
  | [] => .other
  | word :: rest =>
    match word.kind with
    | .declaration declarator =>
      match rest with
      | [] => .wrong .nameMissing
      | name :: rest =>
        if name.isIdentifier then
          match splitTypeWord? rest with
          | none => .wrong .typeMissing
          | some (typeWord, tail) =>
            match tailCause? declarator typeWord tail with
            | some cause => .wrong cause
            | none => .form { word, name, typeWord, tail }
        else .wrong .nameMissing
    | _ => .other

end Declaration

def isConstantDefinition : List Lexeme → Bool
  | [name, sign, constant] => name.isIdentifier && sign.kind == .assign && constant.isConstant
  | _ => false

def readAssignment : List Lexeme → Reading Lexeme
  | name :: sign :: value =>
    if name.isIdentifier ∧ sign.kind = .assign then
      if isExpression value then .form name else .wrong .expressionInvalid
    else .other
  | _ => .other

/-- `if condition then goto mark` -/
structure Conditional where
  word : Lexeme
  condition : List Lexeme
  jump : Lexeme
  mark : Lexeme

def Conditional.read : List Lexeme → Reading Conditional
  | [] => .other
  | word :: rest =>
    if word.kind = .condition .ifWord then
      match rest.reverse with
      | mark :: jump :: thenWord :: last :: front =>
        if thenWord.kind = .condition .thenWord ∧ jump.kind = .jump ∧ mark.isIdentifier then
          let condition := (last :: front).reverse
          if isCondition condition then .form { word, condition, jump, mark }
          else .wrong .conditionInvalid
        else .wrong .jumpMissing
      | _ => .wrong .jumpMissing
    else .other

def readGoto : List Lexeme → Reading (Lexeme × Lexeme)
  | [] => .other
  | word :: rest =>
    if word.kind = .jump then
      match rest with
      | [mark] => if mark.isIdentifier then .form (word, mark) else .wrong .markMissing
      | _ => .wrong .markMissing
    else .other

def readLabel : List Lexeme → Reading (Lexeme × Lexeme)
  | [mark, colon] =>
    if mark.isIdentifier ∧ colon.kind = .punct then .form (mark, colon) else .other
  | _ => .other

end RowLang
