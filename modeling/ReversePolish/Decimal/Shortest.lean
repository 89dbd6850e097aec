import ReversePolish.Decimal.Basic

/-! The shortest decimal that identifies a floating-point magnitude. Every finite
magnitude is a decimal of finitely many digits. The search goes through the grids
of powers of ten from the coarsest to that of the magnitude itself, and on each
grid tests the two neighbours of the magnitude, the nearer one first. -/

namespace ReversePolish.Binary.Magnitude

variable {f : Format}

/-- The coefficient of the magnitude as a decimal with exponent `-f.unitExponent`. -/
def exactCoefficient (m : Magnitude f) : Nat := m.units * Nat.pow 5 f.unitExponent

/-- The multiple of the `places`-th power of ten, in the scale of the exact coefficient. -/
def gridPoint (f : Format) (places multiple : Nat) : Decimal := ⟨multiple, places - f.unitExponent⟩

/-- The grid's neighbour of the magnitude that reads back as it: the nearer one,
an even one from midway, and only if that fails the other. -/
def onGrid (m : Magnitude f) (places : Nat) : Option Decimal :=
  let below := m.exactCoefficient / Nat.pow 10 places
  let nearer := roundHalfEven m.exactCoefficient (Nat.pow 10 places)
  ([nearer, below, below + 1].map (gridPoint f places)).find? (·.nearest = m)

/-- The first hit on the grids from the `places`-th down. -/
def shortestFrom (m : Magnitude f) : Nat → Decimal
  | 0 => gridPoint f 0 m.exactCoefficient
  | places + 1 => (m.onGrid (places + 1)).getD (m.shortestFrom places)

/-- The shortest decimal that reads back as the magnitude. -/
def shortest (m : Magnitude f) : Decimal :=
  m.shortestFrom ((Nat.toDigits 10 m.exactCoefficient).length - 1)

end ReversePolish.Binary.Magnitude
