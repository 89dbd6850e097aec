import ReversePolish.Binary.Basic
import ReversePolish.Decimal.Shortest
import ReversePolish.Text.Basic

/-! How numbers are written. A style decides which values are written positionally,
how a whole number ends and what stands for a value that is not a number; the
digits are always the shortest that identify the value in its own format. -/

namespace ReversePolish

open Binary

namespace Decimal

/-- The digits around the decimal point, with zeros filling the places up to it.
`wholeEnd` follows a whole number. -/
def positional (wholeEnd : Text) (d : Decimal) : Text :=
  let s := d.digits
  if d.point ≤ 0 then '0' :: '.' :: (List.replicate d.point.natAbs '0' ++ s)
  else if s.length ≤ d.point then s ++ List.replicate (d.point.toNat - s.length) '0' ++ wholeEnd
  else s.take d.point.toNat ++ '.' :: s.drop d.point.toNat

/-- The power of ten of the first digit. -/
def order (d : Decimal) : Int := d.point - 1

/-- One digit before the point, and a signed power of ten of at least two digits. -/
def scientific (d : Decimal) : Text :=
  let significand := match d.digits with
    | first :: second :: rest => first :: '.' :: second :: rest
    | s => s
  significand ++ 'e' :: (if d.order < 0 then '-' else '+') ::
    (Text.ofNat d.order.natAbs).leftpad 2 '0'

end Decimal

/-- The decisions of a way to write numbers. -/
structure NumberStyle where
  nan : Text
  /-- What ends a whole number. -/
  wholeEnd : Text
  /-- The powers of ten of the first digit that are written positionally. -/
  isPositional : Int → Bool

namespace NumberStyle

/-- Always positional, and a whole number has no point. -/
def plain : NumberStyle where
  nan := "NaN".toList
  wholeEnd := []
  isPositional _ := true

/-- A point or an exponent in every finite number; positional from `1e-4` up to `1e16`. -/
def general : NumberStyle where
  nan := "nan".toList
  wholeEnd := ".0".toList
  isPositional order := -4 ≤ order && order < 16

variable {f : Format}

def magnitude (style : NumberStyle) (m : Magnitude f) : Text :=
  if m.isInfinite then "inf".toList
  else if m.isZero then '0' :: style.wholeEnd
  else
    let d := m.shortest
    if style.isPositional d.order then d.positional style.wholeEnd else d.scientific

def write (style : NumberStyle) : BinaryFloat f → Text
  | .nan => style.nan
  | .signed negative m => if negative then '-' :: style.magnitude m else style.magnitude m

end NumberStyle

end ReversePolish
