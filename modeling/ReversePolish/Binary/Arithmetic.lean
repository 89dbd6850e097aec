import ReversePolish.Binary.Basic

/-! Arithmetic on floating-point values. The exact result of an operation on
finite values is a quotient of whole numbers of units, so each operation is one
rounding of that quotient; infinities and zeros follow IEEE 754. -/

namespace ReversePolish.BinaryFloat

open Binary

variable {f : Format}

def neg : BinaryFloat f → BinaryFloat f
  | .nan => .nan
  | .signed s m => .signed (!s) m

/-- A finite value as a signed number of units. -/
def signedUnits (negative : Bool) (m : Magnitude f) : Int :=
  if negative then -m.units else m.units

/-- An exact zero is negative only if both operands are, so only for two negative zeros. -/
def add : BinaryFloat f → BinaryFloat f → BinaryFloat f
  | .signed s a, .signed t b =>
    if a.isInfinite then
      if b.isInfinite && s != t then .nan else .infinity s
    else if b.isInfinite then .infinity t
    else
      let sum := signedUnits s a + signedUnits t b
      if sum = 0 then .zero (s && t) else .signed (sum < 0) (.nearest sum.natAbs 1)
  | _, _ => .nan

def sub (x y : BinaryFloat f) : BinaryFloat f := x.add y.neg

def mul : BinaryFloat f → BinaryFloat f → BinaryFloat f
  | .signed s a, .signed t b =>
    if a.isInfinite || b.isInfinite then
      if a.isZero || b.isZero then .nan else .infinity (s != t)
    else .signed (s != t) (.nearest (a.units * b.units) f.one)
  | _, _ => .nan

def div : BinaryFloat f → BinaryFloat f → BinaryFloat f
  | .signed s a, .signed t b =>
    if a.isInfinite then
      if b.isInfinite then .nan else .infinity (s != t)
    else if b.isInfinite then .zero (s != t)
    else if b.isZero then
      if a.isZero then .nan else .infinity (s != t)
    else .signed (s != t) (.nearest (a.units * f.one) b.units)
  | _, _ => .nan

end ReversePolish.BinaryFloat
