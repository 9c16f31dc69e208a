import RowLang.Lexeme.Basic

/-! What is wrong with a statement, and the words for it. -/

namespace RowLang

inductive Rule where
  | statement
  | declaration
  | assignment
  | loop
  | whileLoop
  | forLoop
  | condition
  | goto
deriving DecidableEq, Repr

instance : Vocabulary Rule where
  words := [.statement, .declaration, .assignment, .loop, .whileLoop, .forLoop, .condition, .goto]
  spelling
    | .statement => "statement"
    | .declaration => "declaration"
    | .assignment => "assignment"
    | .loop => "loop"
    | .whileLoop => "while loop"
    | .forLoop => "for loop"
    | .condition => "condition"
    | .goto => "goto"

inductive Cause where
  | nameMissing
  | typeMissing
  | assignMissing
  | initializerInvalid
  | valUninitialized
  | varUntyped
  | expressionInvalid
  | bodyMissing
  | whileConditionInvalid
  | forHeaderMissing
  | boundInvalid
  | toMissing
  | counterInvalid
  | jumpMissing
  | conditionInvalid
  | markMissing
deriving DecidableEq, Repr

namespace Cause

def rule : Cause → Rule
  | nameMissing | typeMissing | assignMissing | initializerInvalid | valUninitialized
  | varUntyped => .declaration
  | expressionInvalid => .assignment
  | bodyMissing => .loop
  | whileConditionInvalid => .whileLoop
  | forHeaderMissing | boundInvalid | toMissing | counterInvalid => .forLoop
  | jumpMissing | conditionInvalid => .condition
  | markMissing => .goto

def detail : Cause → String
  | nameMissing => "expected identifier"
  | typeMissing => "expected type"
  | assignMissing => "expected ="
  | initializerInvalid | counterInvalid => "invalid initializer"
  | valUninitialized => "val requires an initializer"
  | varUntyped => "var requires a type or an initializer"
  | expressionInvalid => "invalid expression"
  | bodyMissing => "expected do ... end"
  | whileConditionInvalid | conditionInvalid => "invalid condition"
  | forHeaderMissing => "expected for ... to ..."
  | boundInvalid => "invalid bound"
  | toMissing => "expected to"
  | jumpMissing => "expected if ... then goto <mark>"
  | markMissing => "expected mark"

end Cause

/-- A complaint about lexemes. The depth counts the loops around them. -/
structure Diagnostic where
  rule : Rule
  detail : Option String
  lexemes : List Lexeme
  depth : Nat
deriving DecidableEq, Repr

namespace Diagnostic

def row (d : Diagnostic) : Nat :=
  (d.lexemes.head?.map Lexeme.row).getD 0

def message (d : Diagnostic) : String :=
  let detail := (d.detail.map fun text => s!" ({text})").getD ""
  s!"Wrong {spelling d.rule}{detail} on line {d.row}: {joinTexts d.lexemes}"

/-- The oldest of the most deeply nested diagnostics, which are given newest first. -/
def deepest? : List Diagnostic → Option Diagnostic
  | [] => none
  | d :: ds =>
    match deepest? ds with
    | none => some d
    | some e => some (if e.depth < d.depth then d else e)

end Diagnostic

/-- A program that is no list of statements; there is no diagnostic for the empty program. -/
structure SyntaxError where
  diagnostic : Option Diagnostic
deriving DecidableEq, Repr

def SyntaxError.message (e : SyntaxError) : String :=
  "Syntax is wrong!\n" ++ (e.diagnostic.map Diagnostic.message).getD "Empty program"

end RowLang
