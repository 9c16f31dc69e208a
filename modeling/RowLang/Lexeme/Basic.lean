import RowLang.Vocabulary
import RowLang.Text.Columns
import RowLang.Text.Quoted

/-! Lexemes: classified pieces of source text, each with the row on which it stands. -/

namespace RowLang

inductive Kind where
  | identifier
  | constant
  | declaration (word : Declarator)
  | loop (word : LoopWord)
  | condition (word : ConditionWord)
  | jump
  | type (word : TypeWord)
  | assign
  | addOp (sign : AddSign)
  | multOp (sign : MultSign)
  | powOp
  | relOp (sign : RelSign)
  | bracket (side : Bracket)
  | punct
deriving DecidableEq, Repr

namespace Kind

def heading : Kind → String
  | identifier => "IDENTIFIER"
  | constant => "CONSTANT"
  | declaration _ => "DECLARATION"
  | loop _ => "LOOP"
  | condition _ => "CONDITION"
  | jump => "JUMP"
  | type _ => "TYPE"
  | assign => "ASSIGN"
  | addOp _ => "ADD_OP"
  | multOp _ => "MULT_OP"
  | powOp => "POW_OP"
  | relOp _ => "REL_OP"
  | bracket _ => "BRACKET_OP"
  | punct => "PUNCT"

def fullName : Kind → String
  | identifier => "Identifier"
  | constant => "Constant"
  | declaration .val => "Declaration(Val)"
  | declaration .var => "Declaration(Var)"
  | loop .forWord => "Loop(For)"
  | loop .whileWord => "Loop(While)"
  | loop .toWord => "Loop(To)"
  | loop .doWord => "Loop(Do)"
  | loop .endWord => "Loop(End)"
  | condition .ifWord => "Condition(If)"
  | condition .thenWord => "Condition(Then)"
  | jump => "Jump"
  | type .number => "Type(Number)"
  | type .boolean => "Type(Boolean)"
  | type .string => "Type(String)"
  | assign => "Assign"
  | addOp .plus => "AddOp(Plus)"
  | addOp .minus => "AddOp(Minus)"
  | multOp .star => "MultOp(Star)"
  | multOp .slash => "MultOp(Slash)"
  | powOp => "PowOp"
  | relOp .gte => "RelOp(Gte)"
  | relOp .lte => "RelOp(Lte)"
  | relOp .eq => "RelOp(Eq)"
  | relOp .neq => "RelOp(Neq)"
  | relOp .gt => "RelOp(Gt)"
  | relOp .lt => "RelOp(Lt)"
  | bracket .opening => "Bracket(Open)"
  | bracket .closing => "Bracket(Close)"
  | punct => "Punct"

/-- The kind of a word or sign with a fixed spelling. Spellings of different families differ, so
the order of the families decides nothing. -/
def ofSpelling? (text : String) : Option Kind :=
  (Vocabulary.read? text).map declaration
    <|> (Vocabulary.read? text).map loop
    <|> (Vocabulary.read? text).map condition
    <|> (if text = "goto" then some jump else none)
    <|> (Vocabulary.read? text).map type
    <|> (if text = "=" then some assign else none)
    <|> (Vocabulary.read? text).map addOp
    <|> (Vocabulary.read? text).map multOp
    <|> (if text = "^" then some powOp else none)
    <|> (Vocabulary.read? text).map relOp
    <|> (Vocabulary.read? text).map bracket
    <|> (if text = ":" then some punct else none)

def isAddOp : Kind → Bool
  | addOp _ => true
  | _ => false

def isTermOp : Kind → Bool
  | multOp _ | powOp => true
  | _ => false

def isRelOp : Kind → Bool
  | relOp _ => true
  | _ => false

def isOperand : Kind → Bool
  | identifier | constant => true
  | _ => false

end Kind

/-- A classified piece of text. The link is the position of its entry in the table of constants
or of identifiers. -/
structure Lexeme where
  row : Nat
  text : String
  kind : Kind
  link : Option Nat := none
deriving DecidableEq, Repr

namespace Lexeme

def isIdentifier (l : Lexeme) : Bool := l.kind == .identifier

def isConstant (l : Lexeme) : Bool := l.kind == .constant

/-- A line of the listing of lexemes. It ends in a blank if there is no link. -/
def listing (l : Lexeme) : String :=
  Text.joinWith " "
    [Text.padRight 7 (Nat.repr l.row), Text.padRight 15 l.text, Text.padRight 15 l.kind.heading,
      (l.link.map Nat.repr).getD ""]

def summary (l : Lexeme) : String :=
  s!"{l.kind.fullName}@{l.row}({Text.quoted l.text})"

end Lexeme

def joinTexts (lexemes : List Lexeme) : String :=
  Text.joinWith " " (lexemes.map Lexeme.text)

end RowLang
