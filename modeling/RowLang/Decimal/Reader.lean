import RowLang.Decimal.Basic

/-! Reading a number from its text: an optional sign, then `inf`, `infinity` or `nan` in any
case, or digits with an optional point and an optional exponent. A point needs a digit on one
side, an exponent mark needs digits behind it, and nothing may follow. -/

namespace RowLang.Decimal

def valueOf (digits : List Char) : Nat :=
  digits.foldl (fun n c => 10 * n + (c.toNat - '0'.toNat)) 0

/-- Splits off a sign; `true` stands for minus. -/
def splitSign : List Char → Bool × List Char
  | '-' :: s => (true, s)
  | '+' :: s => (false, s)
  | s => (false, s)

def readExponent? : List Char → Option Int
  | [] => some 0
  | mark :: s =>
    let (negative, digits) := splitSign s
    if mark.toLower = 'e' ∧ digits ≠ [] ∧ digits.all Char.isDigit then
      some (if negative then -(valueOf digits : Int) else valueOf digits)
    else none

def readUnsigned? (s : List Char) : Option Decimal :=
  let whole := s.takeWhile Char.isDigit
  let (fraction, rest) :=
    match s.dropWhile Char.isDigit with
    | '.' :: t => (t.takeWhile Char.isDigit, t.dropWhile Char.isDigit)
    | t => ([], t)
  if whole ++ fraction = [] then none
  else (readExponent? rest).map fun e =>
    ⟨valueOf (whole ++ fraction), e - fraction.length⟩

def readMagnitude? (s : List Char) : Option Float :=
  let word := String.ofList (s.map Char.toLower)
  if word = "inf" ∨ word = "infinity" then some (1.0 / 0.0)
  else if word = "nan" then some (0.0 / 0.0)
  else (readUnsigned? s).map toFloat

def read? (s : List Char) : Option Float :=
  let (negative, rest) := splitSign s
  (readMagnitude? rest).map fun x => if negative then -x else x

end RowLang.Decimal
