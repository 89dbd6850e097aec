/-! Binary floating-point formats, their magnitudes, and rounding to them. A
magnitude is named by its rank, its place in the increasing sequence zero,
smallest subnormal, …, largest finite value, infinity; the rank is also its bit
pattern without the sign. Values are counted in units of the smallest subnormal,
so that every finite one is a natural number, and rounding a quotient of natural
numbers to the nearest magnitude is one division. -/

namespace ReversePolish.Binary

/-- A binary interchange format: its significands store `fractionBits` bits, its
smallest subnormal is `2 ^ -unitExponent`, and `infinityField` is the exponent
field of infinity. -/
structure Format where
  fractionBits : Nat
  unitExponent : Nat
  infinityField : Nat

namespace Format

def single : Format := ⟨23, 149, 255⟩

def double : Format := ⟨52, 1074, 2047⟩

/-- The number of ranks that share one exponent field. -/
def binade (f : Format) : Nat := Nat.pow 2 f.fractionBits

/-- The number one in units of the smallest subnormal. -/
def one (f : Format) : Nat := Nat.pow 2 f.unitExponent

/-- The rank of infinity. -/
def top (f : Format) : Nat := f.infinityField * f.binade

/-- The weight of the sign bit; the patterns between `top` and it are not numbers. -/
def signWeight (f : Format) : Nat := f.top + f.binade

/-- The value of a rank in units of the smallest subnormal. Infinity gets the
value that would follow the largest finite one. -/
def unitsOfRank (f : Format) (rank : Nat) : Nat :=
  let field := rank / f.binade
  if field = 0 then rank else (f.binade + rank % f.binade) * Nat.pow 2 (field - 1)

end Format

/-- The whole number nearest to `num / den`; a half goes to the even neighbour. -/
def roundHalfEven (num den : Nat) : Nat :=
  let low := num / den
  let rest := num % den
  if 2 * rest < den ∨ 2 * rest = den ∧ low % 2 = 0 then low else low + 1

/-- A nonnegative value of the format, infinity included. -/
structure Magnitude (f : Format) where
  rank : Nat
  rank_le_top : rank ≤ f.top
  deriving DecidableEq

namespace Magnitude

variable {f : Format}

def zero : Magnitude f := ⟨0, Nat.zero_le _⟩

def infinity : Magnitude f := ⟨f.top, Nat.le_refl _⟩

/-- The magnitude of a rank; what lies beyond infinity is infinity. -/
def ofRank (rank : Nat) : Magnitude f := ⟨min rank f.top, Nat.min_le_right ..⟩

def isZero (m : Magnitude f) : Bool := m.rank == 0

def isInfinite (m : Magnitude f) : Bool := m.rank == f.top

def units (m : Magnitude f) : Nat := f.unitsOfRank m.rank

/-- The magnitude nearest to `num / den` units, a half going to the even rank.
The quotient is scaled down until its whole part fits a significand, rounded
there, and moved up by one binade for each halving; a significand that rounds up
to the next power of two lands on the first rank of the next binade. -/
def nearest (num den : Nat) : Magnitude f :=
  let halvings := (num / den).log2 - f.fractionBits
  ofRank (roundHalfEven num (den * Nat.pow 2 halvings) + halvings * f.binade)

@[ext] theorem ext {a b : Magnitude f} (h : a.rank = b.rank) : a = b := by
  cases a; cases b; cases h; rfl

@[simp] theorem rank_ofRank (r : Nat) : (ofRank r : Magnitude f).rank = min r f.top := rfl

@[simp] theorem ofRank_rank (m : Magnitude f) : ofRank m.rank = m :=
  ext (Nat.min_eq_left m.rank_le_top)

end Magnitude

end ReversePolish.Binary
