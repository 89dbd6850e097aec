import ReversePolish.Binary.Format

/-! Nonnegative decimal numbers and their nearest floating-point magnitude. The
exponent of a decimal may be astronomically large or small; two comparisons of
orders of magnitude settle those cases before any power of ten is computed. -/

namespace ReversePolish

open Binary

/-- The number `coefficient * 10 ^ exponent`. -/
structure Decimal where
  coefficient : Nat
  exponent : Int

namespace Decimal

variable {f : Format}

/-- The magnitude nearest to the number, by one division and with no regard to cost. -/
def nearestExactly (d : Decimal) : Magnitude f :=
  .nearest (d.coefficient * Nat.pow 10 d.exponent.toNat * f.one) (Nat.pow 10 (-d.exponent).toNat)

/-- At least infinity's value, because ten is at least `2 ^ 3`. -/
def isHuge (f : Format) (d : Decimal) : Bool :=
  0 ≤ d.exponent ∧
    (f.fractionBits + f.infinityField : Int) ≤
      d.coefficient.log2 + 3 * d.exponent + f.unitExponent + 1

/-- Less than half of the smallest subnormal, because ten is at least `2 ^ 3`. -/
def isTiny (f : Format) (d : Decimal) : Bool :=
  (d.coefficient.log2 + f.unitExponent + 2 : Int) ≤ -(3 * d.exponent)

/-- The magnitude nearest to the number, a half going to the even rank. -/
def nearest (d : Decimal) : Magnitude f :=
  if d.coefficient = 0 then .zero
  else if d.isHuge f then .infinity
  else if d.isTiny f then .zero
  else d.nearestExactly

/-- The digits of the coefficient without its trailing zeros. -/
def digits (d : Decimal) : List Char :=
  ((Nat.toDigits 10 d.coefficient).reverse.dropWhile (· == '0')).reverse

/-- Where the decimal point stands, counted from before the first digit. -/
def point (d : Decimal) : Int := (Nat.toDigits 10 d.coefficient).length + d.exponent

end Decimal

end ReversePolish
