import ReversePolish.Proofs.Binary.Midpoint

/-! The numbers that signed values stand for, and rounding to them. Values of the other sign
are never closer than zero, so the nearest value has the nearest magnitude. Single precision
overflows where half a step beyond the largest finite value is reached. -/

namespace ReversePolish

open Binary

variable {f : Format}

/-- The number with its sign changed if it is to be negative. -/
def Binary.withSign (negative : Bool) (r : ℚ) : ℚ := if negative then -r else r

/-- The whole number whose product with a power of two is the value. -/
def Binary.Magnitude.significand (m : Magnitude f) : Nat :=
  if m.rank < f.binade then m.rank else f.binade + m.rank % f.binade

namespace BinaryFloat

/-- The number that a finite value stands for. -/
def toRat? : BinaryFloat f → Option ℚ
  | .nan => none
  | .signed negative m => if m.isInfinite then none else some (withSign negative m.toRat)

def significand : BinaryFloat f → Nat
  | .nan => 0
  | .signed _ m => m.significand

/-- A finite value that no finite value is closer to the number than. If one with another
number is as close, the significand is even. -/
def IsClosest (x : ℚ) (v : BinaryFloat f) : Prop :=
  ∃ q, v.toRat? = some q ∧ ∀ v' : BinaryFloat f, ∀ q', v'.toRat? = some q' →
    |q - x| ≤ |q' - x| ∧ (q' ≠ q → |q' - x| = |q - x| → Even v.significand)

/-- A finite value is a sign and a finite magnitude. -/
theorem exists_magnitude_of_toRat? {v : BinaryFloat f} {q : ℚ} (h : v.toRat? = some q) :
    ∃ negative m, v = .signed negative m ∧ m.isInfinite = false ∧
      withSign negative m.toRat = q := by
  obtain _ | ⟨negative, m⟩ := v
  · cases h
  obtain ⟨hfinite, hq⟩ := Option.ite_none_left_eq_some.mp h
  exact ⟨negative, m, rfl, by simpa using hfinite, Option.some.inj hq⟩

/-- The number rounded to single precision, to the nearest value and midway to the even one. -/
structure IsRounded (x : ℚ) (v : Binary32) : Prop where
  closest (hx : |x| < 2 ^ 128 - 2 ^ 103) : v.IsClosest x
  overflow (hx : 2 ^ 128 - 2 ^ 103 ≤ |x|) : v = .infinity (x < 0)

end BinaryFloat

namespace Binary

section Sign

variable {x r : ℚ} {negative : Bool}

theorem abs_withSign (negative : Bool) (r : ℚ) : |withSign negative r| = |r| := by
  cases negative
  · rfl
  · exact abs_neg r

theorem withSign_sub (negative : Bool) (r x : ℚ) :
    |withSign negative r - withSign negative x| = |r - x| := by
  cases negative
  · rfl
  · rw [withSign, withSign, if_pos rfl, if_pos rfl, neg_sub_neg, abs_sub_comm]

theorem withSign_not_sub (negative : Bool) (hr : 0 ≤ r) (hx : 0 ≤ x) :
    |withSign (!negative) r - withSign negative x| = r + x := by
  cases negative
  · rw [withSign, withSign, Bool.not_false, if_pos rfl, if_neg Bool.false_ne_true,
      abs_of_nonpos (by linarith)]
    ring
  · rw [withSign, withSign, Bool.not_true, if_pos rfl, if_neg Bool.false_ne_true,
      abs_of_nonneg (by linarith)]
    ring

theorem withSign_neg_iff (hx : 0 < x) : withSign negative x < 0 ↔ negative = true := by
  cases negative
  · simp [withSign, hx.le]
  · simp [withSign, hx]

theorem withSign_eq_zero_iff (negative : Bool) : withSign negative x = 0 ↔ x = 0 := by
  cases negative <;> simp [withSign]

/-- A whole number is its distance from zero with its sign. -/
theorem withSign_natAbs_mul (n : ℤ) (q : ℚ) : withSign (n < 0) (n.natAbs * q) = n * q := by
  rcases lt_or_ge n 0 with hneg | hnonneg
  · rw [withSign, if_pos (decide_eq_true hneg), Nat.cast_natAbs, abs_of_neg hneg, Int.cast_neg,
      neg_mul, neg_neg]
  · rw [withSign, if_neg (by simpa using hnonneg), Nat.cast_natAbs, abs_of_nonneg hnonneg]

end Sign

namespace Magnitude

variable {m : Magnitude f} {x : ℚ}

theorem even_significand (hbits : 0 < f.fractionBits) : Even m.significand ↔ Even m.rank := by
  rw [significand]
  split_ifs with h
  · rfl
  · have hone := even_add_mul_binade hbits (m.rank % f.binade) 1
    have hrank := even_add_mul_binade hbits (m.rank % f.binade) (m.rank / f.binade)
    rw [Nat.mod_add_div' m.rank f.binade] at hrank
    rw [hrank, ← hone, Nat.one_mul, Nat.add_comm]

theorem abs_toRat_zero_sub (hx : 0 ≤ x) : |(zero : Magnitude f).toRat - x| = x := by
  rw [toRat_zero, zero_sub, abs_neg, abs_of_nonneg hx]

theorem IsNearest.isClosest (hbits : 0 < f.fractionBits) (hm : IsNearest x m) (hx : 0 ≤ x)
    (hfinite : m.isInfinite = false) (negative : Bool) :
    (BinaryFloat.signed negative m).IsClosest (withSign negative x) := by
  refine ⟨_, if_neg (by simp [hfinite]), fun v' q' hv' => ?_⟩
  rw [withSign_sub]
  obtain ⟨s, n, rfl, -, rfl⟩ := BinaryFloat.exists_magnitude_of_toRat? hv'
  rw [BinaryFloat.significand, even_significand hbits]
  by_cases hsign : s = negative
  · subst hsign
    rw [withSign_sub]
    refine ⟨hm.le n, fun hne htie => hm.even n ?_ htie⟩
    rintro rfl
    exact hne rfl
  · obtain rfl : s = !negative := Bool.eq_not.mpr hsign
    rw [withSign_not_sub _ n.toRat_nonneg hx]
    have hn := n.toRat_nonneg
    have hzero := hm.le zero
    rw [abs_toRat_zero_sub hx] at hzero
    refine ⟨by linarith, fun hne htie => ?_⟩
    -- Only zero can be as close, and then it is not the nearest magnitude itself.
    have hnzero : n.toRat = 0 := by linarith
    refine hm.even zero ?_ ((abs_toRat_zero_sub hx).trans (by linarith))
    rintro rfl
    rw [hnzero, toRat_zero] at hne
    cases negative <;> simp [withSign] at hne

/-- The nearest magnitude with the sign of the number is the number rounded. -/
theorem IsNearest.isRounded {m : Magnitude .single} (hm : IsNearest x m) (hx : 0 ≤ x)
    (negative : Bool) : (BinaryFloat.signed negative m).IsRounded (withSign negative x) := by
  have hinf := hm.eq_infinity_iff (by decide)
  rw [Format.single_midpoint_top] at hinf
  constructor
  · intro hlt
    rw [abs_withSign, abs_of_nonneg hx] at hlt
    have hfinite : m.isInfinite = false := by
      rw [isInfinite, beq_eq_false_iff_ne]
      exact fun htop => hlt.not_ge (hinf.mp (ext htop))
    exact hm.isClosest (by decide) hx hfinite negative
  · intro hle
    rw [abs_withSign, abs_of_nonneg hx] at hle
    have hpos : 0 < x := lt_of_lt_of_le (by norm_num) hle
    have hsign : decide (withSign negative x < 0) = negative := by simp [withSign_neg_iff hpos]
    rw [hsign, hinf.mpr hle]
    rfl

end Magnitude

end Binary

end ReversePolish
