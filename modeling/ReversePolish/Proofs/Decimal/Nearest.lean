import ReversePolish.Decimal.Basic
import ReversePolish.Proofs.Binary.Closest

/-! The magnitude nearest to a decimal depends on the decimal's value only. The two
comparisons of orders of magnitude that avoid large powers of ten never change the
answer, so it is always one division, and of that only the quotient matters. -/

namespace ReversePolish.Decimal

open Binary

variable {f : Format}

/-- The number that a decimal writes. -/
def toRat (d : Decimal) : ℚ := d.coefficient * 10 ^ d.exponent

theorem toRat_nonneg (d : Decimal) : 0 ≤ d.toRat :=
  mul_nonneg (Nat.cast_nonneg _) (zpow_nonneg (by decide) _)

/-- The quotient that the nearest magnitude of a decimal is rounded from. -/
def units (f : Format) (d : Decimal) : Nat × Nat :=
  (d.coefficient * 10 ^ d.exponent.toNat * f.one, 10 ^ (-d.exponent).toNat)

theorem nearestExactly_eq (d : Decimal) :
    (d.nearestExactly : Magnitude f) = .nearest (d.units f).1 (d.units f).2 := rfl

theorem units_snd_pos (d : Decimal) : 0 < (d.units f).2 := Nat.pow_pos (by decide)

theorem zpow_eq_div (e : ℤ) : (10 : ℚ) ^ e = 10 ^ e.toNat / 10 ^ (-e).toNat := by
  rw [eq_div_iff (by positivity), ← zpow_natCast, ← zpow_natCast, ← zpow_add₀ (by decide)]
  congr 1
  omega

theorem units_div (d : Decimal) : ((d.units f).1 : ℚ) / (d.units f).2 = d.toRat * f.one := by
  rw [toRat, zpow_eq_div, units]
  push_cast
  ring

theorem nearestExactly_congr {d d' : Decimal} (h : d.toRat = d'.toRat) :
    (d.nearestExactly : Magnitude f) = d'.nearestExactly := by
  have hquot : ((d.units f).1 : ℚ) / (d.units f).2 = (d'.units f).1 / (d'.units f).2 := by
    rw [units_div, units_div, h]
  have hden : ((d.units f).2 : ℚ) ≠ 0 := Nat.cast_ne_zero.mpr d.units_snd_pos.ne'
  have hden' : ((d'.units f).2 : ℚ) ≠ 0 := Nat.cast_ne_zero.mpr d'.units_snd_pos.ne'
  rw [div_eq_div_iff hden hden'] at hquot
  rw [nearestExactly_eq, nearestExactly_eq]
  exact Magnitude.nearest_congr d.units_snd_pos d'.units_snd_pos (by exact_mod_cast hquot)

theorem two_pow_three_mul_le (n : Nat) : 2 ^ (3 * n) ≤ 10 ^ n := by
  rw [Nat.pow_mul]
  exact Nat.pow_le_pow_left (by decide) n

theorem nearestExactly_of_isHuge {d : Decimal} (hc : d.coefficient ≠ 0) (h : d.isHuge f) :
    (d.nearestExactly : Magnitude f) = .infinity := by
  simp only [isHuge, decide_eq_true_eq] at h
  obtain ⟨hnonneg, hsize⟩ := h
  obtain ⟨n, hn⟩ := Int.eq_ofNat_of_zero_le hnonneg
  rw [hn] at hsize
  rw [nearestExactly_eq, units, hn]
  apply Magnitude.nearest_eq_infinity
  have hden : 10 ^ (-(n : ℤ)).toNat = 1 := by simp
  rw [hden, Nat.div_one, Int.toNat_natCast]
  calc 2 ^ (f.fractionBits + f.infinityField)
      ≤ 2 ^ (d.coefficient.log2 + 3 * n + f.unitExponent + 1) :=
        Nat.pow_le_pow_right (by decide) (by omega)
    _ = 2 * (2 ^ d.coefficient.log2 * 2 ^ (3 * n) * f.one) := by
        rw [Nat.pow_succ, Nat.pow_add, Nat.pow_add, Nat.mul_comm]; rfl
    _ ≤ 2 * (d.coefficient * 10 ^ n * f.one) := by
        have := Nat.mul_le_mul (Nat.log2_self_le hc) (two_pow_three_mul_le n)
        exact Nat.mul_le_mul_left _ (Nat.mul_le_mul_right _ this)

theorem nearestExactly_of_isTiny {d : Decimal} (h : d.isTiny f) :
    (d.nearestExactly : Magnitude f) = .zero := by
  simp only [isTiny, decide_eq_true_eq] at h
  obtain ⟨n, hn⟩ := Int.eq_ofNat_of_zero_le (show 0 ≤ -d.exponent by omega)
  have hwhole : d.exponent.toNat = 0 := by omega
  rw [nearestExactly_eq, units, hn, hwhole]
  apply Magnitude.nearest_eq_zero
  rw [Nat.pow_zero, Nat.mul_one, Int.toNat_natCast]
  calc 2 * (d.coefficient * f.one)
      < 2 * (2 ^ (d.coefficient.log2 + 1) * f.one) := by
        have := Nat.mul_lt_mul_of_pos_right (Nat.lt_log2_self (n := d.coefficient)) f.one_pos
        omega
    _ = 2 ^ (d.coefficient.log2 + f.unitExponent + 2) := by
        rw [show f.one = 2 ^ f.unitExponent from rfl]; ring
    _ ≤ 2 ^ (3 * n) := Nat.pow_le_pow_right (by decide) (by omega)
    _ ≤ 10 ^ n := two_pow_three_mul_le n

theorem nearestExactly_of_coefficient {d : Decimal} (h : d.coefficient = 0) :
    (d.nearestExactly : Magnitude f) = .zero := by
  rw [nearestExactly_eq]
  apply Magnitude.nearest_eq_zero
  simp [units, h]

/-- The comparisons save time only. -/
theorem nearest_eq_nearestExactly (d : Decimal) :
    (d.nearest : Magnitude f) = d.nearestExactly := by
  unfold nearest
  split_ifs with hc hhuge htiny
  · exact (nearestExactly_of_coefficient hc).symm
  · exact (nearestExactly_of_isHuge hc hhuge).symm
  · exact (nearestExactly_of_isTiny htiny).symm
  · rfl

/-- The nearest magnitude of a decimal is the one that is nearest to its value. -/
theorem isNearest_nearest (hbits : 0 < f.fractionBits) (d : Decimal) :
    Magnitude.IsNearest d.toRat (d.nearest : Magnitude f) := by
  have hvalue : ((d.units f).1 : ℚ) / (d.units f).2 / f.one = d.toRat := by
    rw [units_div, mul_div_cancel_right₀ _ f.one_pos_rat.ne']
  rw [nearest_eq_nearestExactly, nearestExactly_eq, ← hvalue]
  exact Magnitude.isNearest_nearest hbits d.units_snd_pos

/-- Decimals of one value have one nearest magnitude. -/
theorem nearest_congr {d d' : Decimal} (h : d.toRat = d'.toRat) :
    (d.nearest : Magnitude f) = d'.nearest := by
  rw [nearest_eq_nearestExactly, nearest_eq_nearestExactly, nearestExactly_congr h]

end ReversePolish.Decimal
