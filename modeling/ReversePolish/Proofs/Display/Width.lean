import ReversePolish.Proofs.Decimal.Precision
import ReversePolish.Proofs.Display.Shortest

/-! How wide a shown token is. A decimal that is read as a finite value of single precision has
its point at most 45 places from its first digit, and the shortest one has nine digits at most,
so even the smallest and the largest values are narrower than a cell. -/

namespace ReversePolish

open Binary

namespace Decimal

variable {d : Decimal}

/-- The point stands right of the number's power of ten. -/
theorem toRat_lt_pow_point (d : Decimal) : d.toRat < 10 ^ d.point := by
  have hdigits : (Nat.ofDigitChars 10 d.digits 0 : ℚ) < 10 ^ (d.digits.length : ℤ) := by
    rw [zpow_natCast]
    exact_mod_cast d.ofDigitChars_digits_lt
  calc d.toRat = Nat.ofDigitChars 10 d.digits 0 * 10 ^ (d.point - d.digits.length) :=
        d.toRat_eq_digits
    _ < 10 ^ (d.digits.length : ℤ) * 10 ^ (d.point - d.digits.length) :=
        mul_lt_mul_of_pos_right hdigits (zpow_pos (by norm_num) _)
    _ = 10 ^ d.point := by
        rw [← zpow_add₀ (by norm_num)]
        congr 1
        omega

theorem pow_point_le_toRat (hd : d.coefficient ≠ 0) : (10 : ℚ) ^ (d.point - 1) ≤ d.toRat := by
  let length := (Nat.toDigits 10 d.coefficient).length
  have hlength : 0 < length := Nat.length_toDigits_pos
  have hcoefficient : (10 : ℚ) ^ ((length - 1 : Nat) : ℤ) ≤ d.coefficient := by
    rw [zpow_natCast]
    exact_mod_cast Magnitude.pow_length_toDigits_le (Nat.pos_of_ne_zero hd)
  calc (10 : ℚ) ^ (d.point - 1) = 10 ^ ((length - 1 : Nat) : ℤ) * 10 ^ d.exponent := by
        rw [← zpow_add₀ (by norm_num), point]
        congr 1
        omega
    _ ≤ d.toRat := mul_le_mul_of_nonneg_right hcoefficient (zpow_nonneg (by norm_num) _)

/-- A decimal that is read as a finite value of single precision is no smaller than half of the
smallest one, and smaller than `2 ^ 128`. -/
theorem point_bounds {m : Magnitude .single} (hfinite : m.isInfinite = false)
    (hzero : m.isZero = false) (hd : d.nearest = m) : -45 ≤ d.point ∧ d.point ≤ 39 := by
  have hnear : Magnitude.IsNearest d.toRat m := hd ▸ d.isNearest_nearest (by decide)
  have hpos : 0 < m.rank := Nat.pos_of_ne_zero (beq_eq_false_iff_ne.mp hzero)
  have hrank : m.rank < Format.single.top :=
    lt_of_le_of_ne m.rank_le_top (beq_eq_false_iff_ne.mp hfinite)
  have hlow : (10 : ℚ) ^ (-46 : ℤ) < 10 ^ d.point := by
    calc (10 : ℚ) ^ (-46 : ℤ) < (0 / 2 ^ 149 + 1 / 2 ^ 149) / 2 := by norm_num
      _ = Format.single.midpoint 0 := by
          norm_num [Format.midpoint, Format.ratOfRank, Format.unitsOfRank, Format.one,
            Format.single, Format.binade]
      _ ≤ d.toRat := hnear.midpoint_le hpos
      _ < 10 ^ d.point := d.toRat_lt_pow_point
  have hhigh : (10 : ℚ) ^ (d.point - 1) < 10 ^ (39 : ℤ) := by
    calc (10 : ℚ) ^ (d.point - 1) ≤ d.toRat :=
          pow_point_le_toRat (Magnitude.coefficient_ne_zero hzero hd)
      _ ≤ Format.single.midpoint m.rank := hnear.le_midpoint le_rfl hrank
      _ < 2 ^ 128 := Format.single_ratOfRank_top ▸ Format.single.midpoint_lt_top hrank
      _ < 10 ^ (39 : ℤ) := by norm_num
  have hten : (1 : ℚ) < 10 := by norm_num
  rw [zpow_lt_zpow_iff_right₀ hten] at hlow hhigh
  omega

/-- The zeros of a positional text reach from its digits to its point. -/
theorem length_positional_le (d : Decimal) :
    (d.positional []).length ≤ d.digits.length + d.point.natAbs + 2 := by
  simp only [positional]
  split_ifs <;> simp <;> omega

end Decimal

namespace NumberStyle

theorem length_magnitude_le (m : Magnitude .single) : (plain.magnitude m).length ≤ 56 := by
  by_cases hinf : m.isInfinite
  · rw [magnitude, if_pos hinf]
    decide
  by_cases hzero : m.isZero
  · rw [magnitude, if_neg hinf, if_pos hzero]
    decide
  rw [Bool.not_eq_true] at hinf hzero
  obtain ⟨hlow, hhigh⟩ := Decimal.point_bounds hinf hzero m.nearest_shortest
  have hdigits : m.shortest.digits.length ≤ 9 :=
    Magnitude.length_digits_shortest_le (n := 8) (by decide) hzero (by decide)
  have hlength := m.shortest.length_positional_le
  rw [magnitude_of_finite hinf hzero]
  omega

theorem length_write_le (v : Binary32) : (plain.write v).length ≤ 57 := by
  cases v with
  | nan => decide
  | signed negative m =>
    have hlength := length_magnitude_le m
    rw [write_signed, List.length_append]
    cases negative <;> simp [writtenSign] <;> omega

end NumberStyle

theorem Token.length_display_le (t : Token) : (Item.token t).display.length ≤ 57 := by
  cases t with
  | number v => exact NumberStyle.length_write_le v
  | constant c => cases c <;> decide
  | unary op => cases op <;> decide
  | binary op => cases op <;> decide
  | invalid => decide

end ReversePolish
