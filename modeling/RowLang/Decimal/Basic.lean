/-! Decimal numerals: a natural number of units of a power of ten, its value as a binary
floating-point number, and its layout with a decimal point. -/

namespace RowLang

structure Decimal where
  digits : Nat
  exponent : Int
deriving DecidableEq, Repr

namespace Decimal

/-- The nearest floating-point number, a tie going to the even one. -/
def toFloat (d : Decimal) : Float :=
  .ofModel (.ofScientific d.digits d.exponent)

def length (d : Decimal) : Nat :=
  (Nat.toDigits 10 d.digits).length

def trimUpTo (d : Decimal) : Nat → Decimal
  | 0 => d
  | n + 1 =>
    if d.exponent < 0 ∧ d.digits % 10 = 0 then trimUpTo ⟨d.digits / 10, d.exponent + 1⟩ n else d

def trim (d : Decimal) : Decimal := d.trimUpTo d.exponent.natAbs

/-- Positional notation: never an exponent, and a point only before a fraction. -/
def layout (d : Decimal) : List Char :=
  let written := Nat.toDigits 10 d.digits
  if 0 ≤ d.exponent then
    written ++ List.replicate d.exponent.toNat '0'
  else
    let places := d.exponent.natAbs
    if places < written.length then
      written.take (written.length - places) ++ '.' :: written.drop (written.length - places)
    else
      '0' :: '.' :: (List.replicate (places - written.length) '0' ++ written)

end Decimal
end RowLang
