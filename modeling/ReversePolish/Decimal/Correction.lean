import ReversePolish.Binary.Arithmetic
import ReversePolish.Decimal.Basic

/-! Correcting a decimal that was rounded in two steps, first to a wider format. The
result of that is at most one place away from the value nearest to the decimal, so the
exact distances of it and of the two values beside it are compared. -/

namespace ReversePolish

open Binary

variable {f : Format}

namespace BinaryFloat

/-- The value beside this one, downwards or upwards. Nothing is beyond infinity. -/
def beside (downwards : Bool) : BinaryFloat f → BinaryFloat f
  | .nan => .nan
  | .signed negative m =>
    if negative == downwards then .signed negative (.ofRank (m.rank + 1))
    else if m.isZero then .signed downwards (.ofRank 1)
    else .signed negative (.ofRank (m.rank - 1))

/-- The value itself and the two beside it. -/
def neighbours (v : BinaryFloat f) : List (BinaryFloat f) := [v, v.beside true, v.beside false]

/-- The exact value as a number of units, where infinity follows the largest finite value. -/
def exactUnits : BinaryFloat f → Int
  | .nan => 0
  | .signed negative m => signedUnits negative m

end BinaryFloat

namespace Decimal

/-- The distance of a value from the decimal with the sign, in parts of a unit that are
fine enough to be whole. -/
def distance (negative : Bool) (d : Decimal) (v : BinaryFloat f) : Nat :=
  let num := d.coefficient * Nat.pow 10 d.exponent.toNat * f.one
  let den := Nat.pow 10 (-d.exponent).toNat
  (v.exactUnits * den - if negative then -(num : Int) else num).natAbs

/-- What the closest value has least of. The last bit counts only between equal distances. -/
def remoteness (negative : Bool) (d : Decimal) (v : BinaryFloat f) : Nat :=
  2 * d.distance negative v + v.toBits % 2

/-- The closest to the decimal with the sign of a value and its neighbours. -/
def correct (negative : Bool) (d : Decimal) (guess : BinaryFloat f) : BinaryFloat f :=
  guess.neighbours.minOn (d.remoteness negative) (List.cons_ne_nil _ _)

end Decimal

end ReversePolish
