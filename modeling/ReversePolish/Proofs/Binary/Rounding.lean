import ReversePolish.Binary.Format
import Mathlib.Algebra.Order.Ring.Nat
import Mathlib.Data.Nat.Log

/-! Rounding to the nearest magnitude. Rounding a quotient looks at nothing but its value,
so a common factor does not matter. A magnitude is the rounding of its own units: its
significand fits without rounding at the scale that its size asks for. At both ends of the
range, less than half a unit is zero and what reaches the value of the infinity's rank is
infinity. -/

namespace ReversePolish.Binary

section RoundHalfEven

theorem roundHalfEven_mul {k : Nat} (hk : 0 < k) (num den : Nat) :
    roundHalfEven (k * num) (k * den) = roundHalfEven num den := by
  have hlt : 2 * (k * (num % den)) < k * den ↔ 2 * (num % den) < den := by
    rw [Nat.mul_left_comm]
    exact Nat.mul_lt_mul_left hk
  have heq : 2 * (k * (num % den)) = k * den ↔ 2 * (num % den) = den := by
    rw [Nat.mul_left_comm]
    exact Nat.mul_right_inj hk.ne'
  simp only [roundHalfEven, Nat.mul_div_mul_left _ _ hk, Nat.mul_mod_mul_left, hlt, heq]

theorem roundHalfEven_mul_self (n : Nat) {den : Nat} (hden : 0 < den) :
    roundHalfEven (n * den) den = n := by
  simp [roundHalfEven, Nat.mul_div_cancel n hden, hden]

theorem div_le_roundHalfEven (num den : Nat) : num / den ≤ roundHalfEven num den := by
  simp only [roundHalfEven]
  split_ifs <;> omega

theorem roundHalfEven_le_div_add_one (num den : Nat) : roundHalfEven num den ≤ num / den + 1 := by
  simp only [roundHalfEven]
  split_ifs <;> omega

/-- No multiple of the denominator is closer to the numerator than the rounded one. -/
theorem natAbs_roundHalfEven_sub_le {den : Nat} (hden : 0 < den) (num k : Nat) :
    ((roundHalfEven num den * den : Nat) - num : Int).natAbs ≤
      ((k * den : Nat) - num : Int).natAbs := by
  have hrest := Nat.mod_lt num hden
  have hsplit := Nat.div_add_mod' num den
  have hnext : (num / den + 1) * den = num / den * den + den := Nat.succ_mul ..
  rcases Nat.lt_or_ge (num / den) k with hlt | hge
  · have hmul : (num / den + 1) * den ≤ k * den := Nat.mul_le_mul_right den hlt
    simp only [roundHalfEven]
    split_ifs <;> omega
  · have hmul : k * den ≤ num / den * den := Nat.mul_le_mul_right den hge
    simp only [roundHalfEven]
    split_ifs <;> omega

theorem roundHalfEven_eq_zero {num den : Nat} (h : 2 * num < den) : roundHalfEven num den = 0 := by
  have hlt : num < den := by omega
  simp [roundHalfEven, Nat.div_eq_of_lt hlt, Nat.mod_eq_of_lt hlt, h]

end RoundHalfEven

namespace Format

variable (f : Format)

theorem binade_pos : 0 < f.binade := Nat.two_pow_pos _

theorem one_pos : 0 < f.one := Nat.two_pow_pos _

end Format

namespace Magnitude

variable {f : Format}

/-- The halvings of a quotient that bring it to the size of a significand. -/
def halvings (f : Format) (num den : Nat) : Nat := (num / den).log2 - f.fractionBits

theorem nearest_eq (num den : Nat) :
    (nearest num den : Magnitude f) =
      ofRank (roundHalfEven num (den * 2 ^ halvings f num den) +
        halvings f num den * f.binade) := rfl

theorem nearest_mul {k : Nat} (hk : 0 < k) (num den : Nat) :
    (nearest (k * num) (k * den) : Magnitude f) = nearest num den := by
  have hh : halvings f (k * num) (k * den) = halvings f num den := by
    rw [halvings, halvings, Nat.mul_div_mul_left _ _ hk]
  rw [nearest_eq, nearest_eq, hh, Nat.mul_assoc, roundHalfEven_mul hk]

/-- Rounding depends on the quotient only. -/
theorem nearest_congr {num den num' den' : Nat} (hden : 0 < den) (hden' : 0 < den')
    (h : num * den' = num' * den) : (nearest num den : Magnitude f) = nearest num' den' := by
  rw [← nearest_mul hden' num den, ← nearest_mul hden num' den', Nat.mul_comm den' num, h,
    Nat.mul_comm num' den, Nat.mul_comm den' den]

theorem nearest_eq_zero {num den : Nat} (h : 2 * num < den) :
    (nearest num den : Magnitude f) = zero := by
  have hh : halvings f num den = 0 := by
    rw [halvings, Nat.div_eq_of_lt (by omega), Nat.log2_zero, Nat.zero_sub]
  rw [nearest_eq, hh, Nat.pow_zero, Nat.mul_one, roundHalfEven_eq_zero h]
  ext
  simp [zero]

/-- Where the quotient is scaled down, its whole part fills a significand. -/
theorem binade_le_div {num den : Nat} (hq : f.binade ≤ num / den) :
    f.binade ≤ num / (den * 2 ^ halvings f num den) := by
  have hpos : num / den ≠ 0 := (f.binade_pos.trans_le hq).ne'
  have hlog : f.fractionBits ≤ (num / den).log2 := (Nat.le_log2 hpos).mpr hq
  rw [← Nat.div_div_eq_div_mul, Nat.le_div_iff_mul_le (Nat.two_pow_pos _)]
  calc f.binade * 2 ^ halvings f num den
      = 2 ^ (f.fractionBits + halvings f num den) := (Nat.pow_add ..).symm
    _ = 2 ^ (num / den).log2 := by rw [halvings, Nat.add_sub_cancel' hlog]
    _ ≤ num / den := Nat.log2_self_le hpos

theorem nearest_eq_infinity {num den : Nat}
    (h : 2 ^ (f.fractionBits + f.infinityField) ≤ 2 * (num / den)) :
    (nearest num den : Magnitude f) = infinity := by
  have hrank : f.top ≤ roundHalfEven num (den * 2 ^ halvings f num den) +
      halvings f num den * f.binade := by
    rcases hfield : f.infinityField with _ | e
    · simp [Format.top, hfield]
    · have hq : 2 ^ (f.fractionBits + e) ≤ num / den := by
        rw [hfield, ← Nat.add_assoc, Nat.pow_succ] at h
        omega
      have hbinade : f.binade ≤ num / den :=
        (Nat.pow_le_pow_right (by decide) (Nat.le_add_right ..)).trans hq
      have hlog : f.fractionBits + e ≤ (num / den).log2 :=
        (Nat.le_log2 (f.binade_pos.trans_le hbinade).ne').mpr hq
      have hhalvings : e * f.binade ≤ halvings f num den * f.binade :=
        Nat.mul_le_mul_right _ (by rw [halvings]; omega)
      have hround := (binade_le_div hbinade).trans (div_le_roundHalfEven ..)
      rw [Format.top, hfield, Nat.add_mul, Nat.one_mul]
      omega
  rw [nearest_eq]
  ext
  simpa [infinity] using hrank

theorem units_of_field_zero {m : Magnitude f} (h : m.rank / f.binade = 0) : m.units = m.rank := by
  simp [units, Format.unitsOfRank, h]

theorem units_of_field_succ {m : Magnitude f} {e : Nat} (h : m.rank / f.binade = e + 1) :
    m.units = (f.binade + m.rank % f.binade) * 2 ^ e := by
  simp [units, Format.unitsOfRank, h]

theorem log2_units {m : Magnitude f} {e : Nat} (h : m.rank / f.binade = e + 1) :
    m.units.log2 = f.fractionBits + e := by
  have hlt := Nat.mod_lt m.rank f.binade_pos
  have hbinade : f.binade = 2 ^ f.fractionBits := rfl
  have hpos : 0 < (f.binade + m.rank % f.binade) * 2 ^ e :=
    Nat.mul_pos (Nat.add_pos_left f.binade_pos _) (Nat.two_pow_pos e)
  rw [units_of_field_succ h, Nat.log2_eq_iff hpos.ne', Nat.pow_succ, Nat.pow_add, ← hbinade,
    Nat.mul_right_comm]
  exact ⟨Nat.mul_le_mul_right _ (by omega),
    Nat.mul_lt_mul_of_pos_right (by omega) (Nat.two_pow_pos e)⟩

theorem units_lt (m : Magnitude f) : m.units < 2 ^ (f.fractionBits + f.infinityField) := by
  rcases hfield : m.rank / f.binade with _ | e
  · rw [units_of_field_zero hfield]
    calc m.rank < f.binade := Nat.lt_of_div_eq_zero f.binade_pos hfield
      _ ≤ 2 ^ (f.fractionBits + f.infinityField) :=
        Nat.pow_le_pow_right (by decide) (Nat.le_add_right ..)
  · have htop : e + 1 ≤ f.infinityField := by
      rw [← hfield]
      exact Nat.div_le_of_le_mul (m.rank_le_top.trans_eq (Nat.mul_comm ..))
    have hlt := Nat.lt_log2_self (n := m.units)
    rw [log2_units hfield] at hlt
    exact hlt.trans_le (Nat.pow_le_pow_right (by decide) (by omega))

/-- A magnitude is nearest to itself. -/
theorem nearest_units (m : Magnitude f) {den : Nat} (hden : 0 < den) :
    (nearest (m.units * den) den : Magnitude f) = m := by
  have hq : m.units * den / den = m.units := Nat.mul_div_cancel _ hden
  have hrank := Nat.div_add_mod m.rank f.binade
  rcases hfield : m.rank / f.binade with _ | e
  · have hlt : m.rank < 2 ^ f.fractionBits := Nat.lt_of_div_eq_zero f.binade_pos hfield
    have hh : halvings f (m.units * den) den = 0 := by
      rw [halvings, hq, units_of_field_zero hfield]
      rcases eq_or_ne m.rank 0 with hzero | hne
      · rw [hzero, Nat.log2_zero, Nat.zero_sub]
      · have := (Nat.log2_lt hne).mpr hlt
        omega
    rw [nearest_eq, hh, Nat.pow_zero, Nat.mul_one, roundHalfEven_mul_self _ hden, Nat.zero_mul,
      units_of_field_zero hfield]
    exact ofRank_rank m
  · have hh : halvings f (m.units * den) den = e := by
      rw [halvings, hq, log2_units hfield, Nat.add_sub_cancel_left]
    have hround : roundHalfEven (m.units * den) (den * 2 ^ e) = f.binade + m.rank % f.binade := by
      rw [units_of_field_succ hfield, Nat.mul_assoc, Nat.mul_comm (2 ^ e)]
      exact roundHalfEven_mul_self _ (Nat.mul_pos hden (Nat.two_pow_pos e))
    have hsum : f.binade + m.rank % f.binade + e * f.binade = m.rank := by
      rw [hfield, Nat.mul_add, Nat.mul_comm] at hrank
      omega
    rw [nearest_eq, hh, hround, hsum]
    exact ofRank_rank m

end Magnitude

end ReversePolish.Binary
