import ReversePolish.Binary.Format

/-! Floating-point values: a sign and a magnitude, or the one value that is not a
number. Every bit pattern is read, and each value has one written pattern.
Conversion between formats rounds once. -/

namespace ReversePolish

open Binary

/-- A value of the format. All patterns that are not numbers are one value. -/
inductive BinaryFloat (f : Format)
  | nan
  | signed (negative : Bool) (magnitude : Magnitude f)
  deriving DecidableEq

abbrev Binary32 := BinaryFloat .single

abbrev Binary64 := BinaryFloat .double

namespace BinaryFloat

variable {f g : Format}

def zero (negative : Bool) : BinaryFloat f := .signed negative .zero

def infinity (negative : Bool) : BinaryFloat f := .signed negative .infinity

/-- The value with the given bit pattern. -/
def ofBits (bits : Nat) : BinaryFloat f :=
  let rank := bits % f.signWeight
  if h : rank ≤ f.top then .signed (f.signWeight ≤ bits) ⟨rank, h⟩ else .nan

/-- The bit pattern of the value; the quiet pattern with a clear sign stands for `nan`. -/
def toBits : BinaryFloat f → Nat
  | .nan => f.top + f.binade / 2
  | .signed negative m => (if negative then f.signWeight else 0) + m.rank

def isZero : BinaryFloat f → Bool
  | .nan => false
  | .signed _ m => m.isZero

/-- Numeric equality: the zeros are equal, and `nan` differs from itself. -/
def numericallyEqual : BinaryFloat f → BinaryFloat f → Bool
  | .signed s a, .signed t b => a.isZero && b.isZero || s == t && a == b
  | _, _ => false

/-- The value rounded to another format, a half going to the even neighbour. -/
def convert : BinaryFloat f → BinaryFloat g
  | .nan => .nan
  | .signed negative m =>
    if m.isInfinite then .infinity negative
    else .signed negative (.nearest (m.units * g.one) f.one)

end BinaryFloat

end ReversePolish
