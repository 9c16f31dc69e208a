/-! The words of the language that have one fixed spelling, in families. -/

namespace RowLang

/-- A finite family of words, in the order in which they are tried, and their spellings. -/
class Vocabulary (α : Type) where
  words : List α
  spelling : α → String

export Vocabulary (spelling)

def Vocabulary.read? {α : Type} [Vocabulary α] (text : String) : Option α :=
  (Vocabulary.words : List α).find? fun w => spelling w == text

/-- What introduces a name: `val` for one that keeps its value, `var` for one that may change. -/
inductive Declarator where
  | val
  | var
deriving DecidableEq, Repr

instance : Vocabulary Declarator where
  words := [.val, .var]
  spelling
    | .val => "val"
    | .var => "var"

inductive LoopWord where
  | forWord
  | whileWord
  | toWord
  | doWord
  | endWord
deriving DecidableEq, Repr

instance : Vocabulary LoopWord where
  words := [.forWord, .whileWord, .toWord, .doWord, .endWord]
  spelling
    | .forWord => "for"
    | .whileWord => "while"
    | .toWord => "to"
    | .doWord => "do"
    | .endWord => "end"

inductive ConditionWord where
  | ifWord
  | thenWord
deriving DecidableEq, Repr

instance : Vocabulary ConditionWord where
  words := [.ifWord, .thenWord]
  spelling
    | .ifWord => "if"
    | .thenWord => "then"

inductive TypeWord where
  | number
  | boolean
  | string
deriving DecidableEq, Repr

instance : Vocabulary TypeWord where
  words := [.number, .boolean, .string]
  spelling
    | .number => "number"
    | .boolean => "boolean"
    | .string => "string"

inductive AddSign where
  | plus
  | minus
deriving DecidableEq, Repr

instance : Vocabulary AddSign where
  words := [.plus, .minus]
  spelling
    | .plus => "+"
    | .minus => "-"

inductive MultSign where
  | star
  | slash
deriving DecidableEq, Repr

instance : Vocabulary MultSign where
  words := [.star, .slash]
  spelling
    | .star => "*"
    | .slash => "/"

inductive RelSign where
  | gte
  | lte
  | eq
  | neq
  | gt
  | lt
deriving DecidableEq, Repr

instance : Vocabulary RelSign where
  words := [.gte, .lte, .eq, .neq, .gt, .lt]
  spelling
    | .gte => ">="
    | .lte => "<="
    | .eq => "=="
    | .neq => "!="
    | .gt => ">"
    | .lt => "<"

inductive Bracket where
  | opening
  | closing
deriving DecidableEq, Repr

instance : Vocabulary Bracket where
  words := [.opening, .closing]
  spelling
    | .opening => "("
    | .closing => ")"

end RowLang
