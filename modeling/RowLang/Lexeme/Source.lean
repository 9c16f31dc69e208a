import RowLang.Lexeme.Basic
import RowLang.Lexeme.Segment
import RowLang.Table.Tables

/-! Lexemes of a source text. Every row is cut into segments and each segment is classified as a
whole; one that fits no kind is reported, and the lexemes around it stand. -/

namespace RowLang

structure Unidentified where
  text : String
  row : Nat
deriving DecidableEq, Repr

def Unidentified.message (u : Unidentified) : String :=
  s!"Unidentified lexem \"{u.text}\" on the row {u.row}."

def isConstantText (segment : List Char) : Bool :=
  segment = "true".toList || segment = "false".toList ||
    Pattern.matchesAll Pattern.quoted? segment || Pattern.matchesAll Pattern.number? segment

def classify (segment : List Char) : Option Kind :=
  if isConstantText segment then some .constant
  else (Kind.ofSpelling? (String.ofList segment)).or
    (if Pattern.matchesAll Pattern.identifier? segment then some .identifier else none)

def identify (row : Nat) (segment : List Char) : Except Unidentified Lexeme :=
  match classify segment with
  | some kind => .ok { row, text := String.ofList segment, kind }
  | none => .error { text := String.ofList segment, row }

/-- The rows of a source text; there is always one more than there are line feeds. -/
def sourceRows (source : String) : List (List Char) :=
  source.toList.splitOn '\n'

def scan (source : String) : List (Except Unidentified Lexeme) :=
  ((sourceRows source).zipIdx 1).flatMap fun (line, row) =>
    (Segment.ofRow line).map (identify row)

structure Lexed where
  lexemes : List Lexeme
  tables : Tables
  unidentified : List Unidentified

def lex (source : String) : Lexed :=
  let items := scan source
  let (tables, lexemes) := ({} : Tables).link (items.filterMap Except.toOption)
  let unidentified := items.filterMap fun
    | .ok _ => none
    | .error u => some u
  { lexemes, tables, unidentified }

end RowLang
