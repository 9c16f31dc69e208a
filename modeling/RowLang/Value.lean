import RowLang.Vocabulary
import RowLang.Decimal.Shortest
import RowLang.Decimal.Reader

/-! The values a program works with, their types, and what a name may be bound to. -/

namespace RowLang

/-- The type of a table entry. A name has no type until its declaration gives it one, and a mark
is a target of jumps. -/
inductive ValueType where
  | undef
  | number
  | string
  | boolean
  | mark
deriving DecidableEq, Repr

namespace ValueType

def heading : ValueType → String
  | undef => "UNDEF"
  | number => "NUMBER"
  | string => "STRING"
  | boolean => "BOOLEAN"
  | mark => "MARK"

def ofWord : TypeWord → ValueType
  | .number => number
  | .boolean => boolean
  | .string => string

end ValueType

inductive Literal where
  | number (x : Float)
  | string (s : String)
  | boolean (b : Bool)

namespace Literal

def type : Literal → ValueType
  | number _ => .number
  | string _ => .string
  | boolean _ => .boolean

def text : Literal → String
  | number x => Decimal.text x
  | string s => "'" ++ s ++ "'"
  | boolean true => "true"
  | boolean false => "false"

def unquote? : List Char → Option (List Char)
  | '\'' :: s => if s.getLast? = some '\'' then some s.dropLast else none
  | _ => none

def read? (text : String) : Option Literal :=
  if text = "true" then some (boolean true)
  else if text = "false" then some (boolean false)
  else match unquote? text.toList with
    | some s => some (string (String.ofList s))
    | none => (Decimal.read? text.toList).map number

def asNumber? : Literal → Option Float
  | number x => some x
  | _ => none

def asBoolean? : Literal → Option Bool
  | boolean b => some b
  | _ => none

/-- Equality as the language has it. Numbers compare as numbers, so `NaN` differs from itself and
the two zeros are equal; values of different types differ. -/
def same : Literal → Literal → Bool
  | number x, number y => x == y
  | string s, string t => s == t
  | boolean a, boolean b => a == b
  | _, _ => false

end Literal

/-- What a name is bound to: nothing before its declaration runs, no value yet after it, then a
value. -/
inductive Binding where
  | undef
  | defined
  | value (v : Literal)

namespace Binding

def text : Binding → String
  | undef => "UNDEF"
  | defined => "DEF"
  | value v => v.text

def value? : Binding → Option Literal
  | value v => some v
  | _ => none

end Binding

end RowLang
