import RowLang.Decimal.Basic

/-! The text of a floating-point number: the fewest digits that read back as the same number,
and of those the nearest to it. -/

namespace RowLang.Decimal

def isNegative (x : Float) : Bool :=
  x.toBits >>> 63 == 1

def exact (x : Float) : Decimal :=
  let stored := ((x.toBits >>> 52) &&& 0x7FF).toNat
  let fraction := (x.toBits &&& 0xFFFFFFFFFFFFF).toNat
  let mantissa := if stored = 0 then fraction else Nat.pow 2 52 + fraction
  let scale := max stored 1
  if 1075 ≤ scale then ⟨mantissa * Nat.pow 2 (scale - 1075), 0⟩
  else ⟨mantissa * Nat.pow 5 (1075 - scale), (scale : Int) - 1075⟩

def readsBack (x : Float) (d : Decimal) : Bool :=
  d.toFloat.toBits == x.toBits

/-- Drops digits at the end, going down or up, whichever reads back as `x`. If both do, the nearer
is taken, and of two equally near the upper. -/
def cut? (x : Float) (d : Decimal) (places : Nat) : Option Decimal :=
  let unit := Nat.pow 10 places
  let lower := trim ⟨d.digits / unit, d.exponent + places⟩
  let upper := trim ⟨d.digits / unit + 1, d.exponent + places⟩
  if readsBack x lower ∧ (2 * (d.digits % unit) < unit ∨ ¬ readsBack x upper) then some lower
  else if readsBack x upper then some upper
  else none

/-- The shortest decimal that reads back as a finite number that is not negative. Seventeen
digits always do; the exact value stands behind them. -/
def shortest (x : Float) : Decimal :=
  let d := exact x
  ((List.range 17).findSome? fun k => cut? x d (d.length - (k + 1))).getD d

def text (x : Float) : String :=
  if x.isNaN then "NaN"
  else
    let magnitude := if isNegative x then -x else x
    let unsigned := if magnitude.isInf then "inf".toList else (shortest magnitude).layout
    String.ofList (if isNegative x then '-' :: unsigned else unsigned)

theorem readsBack_of_cut? {x : Float} {d e : Decimal} {n : Nat} (h : cut? x d n = some e) :
    readsBack x e = true := by
  unfold cut? at h
  grind

end RowLang.Decimal
