import ReversePolish.Proofs.Binary.Remoteness
import ReversePolish.Proofs.Decimal.Nearest

/-! The correction finds the nearest value, if it starts at most one place away from it. The
whole numbers that it compares are the distances of the values from the decimal in one fine
unit, with the last bit below them, so they are ordered as the values are by their remoteness
from the decimal. -/

namespace ReversePolish.Decimal

open Binary

variable {f : Format} {negative : Bool} {d : Decimal} {m guess : Magnitude f}

/-- All distances are whole in one unit. -/
theorem cast_distance (negative : Bool) (d : Decimal) (v : BinaryFloat f) :
    (d.distance negative v : ℚ) =
      |v.toRat - withSign negative d.toRat| * ((d.units f).2 * f.one) := by
  have hone := f.one_pos_rat
  have hden : (0 : ℚ) < (d.units f).2 := Nat.cast_pos.mpr d.units_snd_pos
  have hv : v.toRat * f.one = v.exactUnits := div_mul_cancel₀ _ hone.ne'
  have hd : d.toRat * f.one * (d.units f).2 = (d.units f).1 := by
    rw [← units_div, div_mul_cancel₀ _ hden.ne']
  have hdistance : d.distance negative v = (v.exactUnits * (d.units f).2 -
      if negative then -((d.units f).1 : ℤ) else (d.units f).1).natAbs := rfl
  have hscaled : ((v.exactUnits * (d.units f).2 -
      if negative then -((d.units f).1 : ℤ) else (d.units f).1 : ℤ) : ℚ) =
        (v.toRat - withSign negative d.toRat) * ((d.units f).2 * f.one) := by
    cases negative
    · simp only [Bool.false_eq_true, if_false, withSign]
      push_cast
      rw [← hv, ← hd]
      ring
    · simp only [if_true, withSign]
      push_cast
      rw [← hv, ← hd]
      ring
  rw [hdistance, Nat.cast_natAbs, Int.cast_abs, hscaled, abs_mul, abs_of_pos (mul_pos hden hone)]

/-- What is compared orders the values by their remoteness from the decimal with the sign. -/
theorem remoteness_lt_iff {u v : BinaryFloat f} :
    d.remoteness negative u < d.remoteness negative v ↔
      u.remoteness (withSign negative d.toRat) < v.remoteness (withSign negative d.toRat) := by
  have hscale : (0 : ℚ) < (d.units f).2 * f.one :=
    mul_pos (Nat.cast_pos.mpr d.units_snd_pos) f.one_pos_rat
  have hlt : d.distance negative u < d.distance negative v ↔
      |u.toRat - withSign negative d.toRat| < |v.toRat - withSign negative d.toRat| := by
    rw [← Nat.cast_lt (α := ℚ), cast_distance, cast_distance, mul_lt_mul_iff_left₀ hscale]
  have heq : d.distance negative u = d.distance negative v ↔
      |u.toRat - withSign negative d.toRat| = |v.toRat - withSign negative d.toRat| := by
    rw [← Nat.cast_inj (R := ℚ), cast_distance, cast_distance, mul_left_inj' hscale.ne']
  rw [BinaryFloat.remoteness, BinaryFloat.remoteness, Prod.Lex.toLex_lt_toLex, ← hlt, ← heq,
    remoteness, remoteness]
  omega

/-- A value at most one place away is corrected to the nearest one. -/
theorem correct_eq (hbits : 0 < f.fractionBits) (htop : 0 < f.top) (hm : m.IsNearest d.toRat)
    (hup : m.rank ≤ guess.rank + 1) (hdown : guess.rank ≤ m.rank + 1) :
    d.correct negative (.signed negative guess) = .signed negative m := by
  have hmem : d.correct negative (.signed negative guess) ∈
      (BinaryFloat.signed negative guess).neighbours := List.minOn_mem
  have hle : d.remoteness negative (d.correct negative (.signed negative guess)) ≤
      d.remoteness negative (.signed negative m) :=
    List.apply_minOn_le_of_mem (BinaryFloat.mem_neighbours hup hdown)
  by_contra hne
  have hlt := BinaryFloat.remoteness_lt_of_mem_neighbours hbits htop hm d.toRat_nonneg hmem hne
  exact hle.not_gt (remoteness_lt_iff.mpr hlt)

end ReversePolish.Decimal
