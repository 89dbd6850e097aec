import ReversePolish.Binary.Arithmetic
import ReversePolish.Proofs.Binary.Widening

/-! Arithmetic is exact up to one rounding. A sum, difference, product or quotient of finite
values is the exact number rounded once, over the whole range: with its own sign if it is not
zero, and with the sign that the operands' signs give to an exact zero. Sums and products do not
depend on the order of their operands. -/

namespace ReversePolish

open Binary

section Sign

variable {x y : ℚ}

theorem Binary.withSign_mul (s t : Bool) (x y : ℚ) :
    withSign s x * withSign t y = withSign (s != t) (x * y) := by
  cases s <;> cases t <;> simp [withSign]

theorem Binary.withSign_div (s t : Bool) (x y : ℚ) :
    withSign s x / withSign t y = withSign (s != t) (x / y) := by
  cases s <;> cases t <;> simp [withSign, neg_div, div_neg]

theorem Binary.withSign_not (s : Bool) (x : ℚ) : withSign (!s) x = -withSign s x := by
  cases s <;> simp [withSign]

end Sign

namespace BinaryFloat

variable {f : Format}

section Commutation

theorem add_comm (a b : BinaryFloat f) : a.add b = b.add a := by
  cases a with
  | nan => cases b <;> rfl
  | signed s m =>
    cases b with
    | nan => rfl
    | signed t n =>
      cases hm : m.isInfinite <;> cases hn : n.isInfinite
      · simp [add, hm, hn, Int.add_comm, Bool.and_comm]
      · simp [add, hm, hn]
      · simp [add, hm, hn]
      · cases s <;> cases t <;> simp [add, hm, hn]

theorem mul_comm (a b : BinaryFloat f) : a.mul b = b.mul a := by
  cases a with
  | nan => cases b <;> rfl
  | signed s m =>
    cases b with
    | nan => rfl
    | signed t n =>
      simp only [mul, Bool.or_comm m.isInfinite, Bool.or_comm m.isZero, Nat.mul_comm m.units,
        bne_comm (a := s)]

end Commutation

/-- The sign of a value that has one. -/
def isNegative : BinaryFloat f → Bool
  | nan => false
  | signed negative _ => negative

/-- The number rounded once, with its own sign. The sign of an exact zero is given. -/
structure IsSignedRounding (r : ℚ) (zeroSign : Bool) (v : Binary32) : Prop where
  isRounded : v.IsRounded r
  zero (hr : r = 0) : v = .zero zeroSign
  sign (hr : r ≠ 0) : ∃ m, v = .signed (r < 0) m

theorem toRat?_neg {v : BinaryFloat f} {q : ℚ} (h : v.toRat? = some q) :
    v.neg.toRat? = some (-q) := by
  obtain ⟨negative, m, rfl, hfinite, rfl⟩ := exists_magnitude_of_toRat? h
  rw [neg, toRat?, if_neg (by simp [hfinite]), withSign_not]

theorem neg_eq_zero_iff {v : BinaryFloat f} (negative : Bool) :
    v.neg = .zero (!negative) ↔ v = .zero negative := by
  cases v with
  | nan => exact iff_of_false (by rintro ⟨⟩) (by rintro ⟨⟩)
  | signed s m => cases s <;> cases negative <;> simp [neg, BinaryFloat.zero]

end BinaryFloat

namespace Binary.Magnitude

variable {f : Format} {x : ℚ}

theorem toRat_eq_units_div (m : Magnitude f) : m.toRat = m.units / f.one := rfl

theorem toRat_eq_zero_iff {m : Magnitude f} : m.toRat = 0 ↔ m = zero := by
  rw [← toRat_zero, toRat_injective.eq_iff]

theorem units_eq_zero_iff {m : Magnitude f} : m.units = 0 ↔ m = zero := by
  rw [← toRat_eq_zero_iff, toRat_eq_units_div, div_eq_zero_iff, or_iff_left f.one_pos_rat.ne',
    Nat.cast_eq_zero]

theorem signedUnits_div_one (negative : Bool) (m : Magnitude f) :
    (BinaryFloat.signedUnits negative m : ℚ) / f.one = withSign negative m.toRat := by
  cases negative <;> simp [BinaryFloat.signedUnits, withSign, toRat_eq_units_div, neg_div]

/-- The nearest magnitude with the sign of the number is the number rounded, and zero has the
sign that is given to it. -/
theorem IsNearest.isSignedRounding {m : Magnitude .single} (hm : IsNearest x m) (hx : 0 ≤ x)
    (negative : Bool) :
    (BinaryFloat.signed negative m).IsSignedRounding (withSign negative x) negative where
  isRounded := hm.isRounded hx negative
  zero hr := by
    have hzero : IsNearest x (zero : Magnitude .single) := by
      rw [(withSign_eq_zero_iff negative).mp hr, ← toRat_zero]
      exact isNearest_toRat zero
    rw [hm.unique hzero]
    rfl
  sign hr := by
    have hpos : 0 < x := lt_of_le_of_ne hx fun h => hr ((withSign_eq_zero_iff negative).mpr h.symm)
    exact ⟨m, by simp [withSign_neg_iff hpos]⟩

end Binary.Magnitude

namespace BinaryFloat

variable {a b : Binary32} {x y r : ℚ}

open Magnitude

theorem IsSignedRounding.of_ne_zero {zeroSign : Bool} {v : Binary32} (hr : r ≠ 0)
    (h : v.IsSignedRounding r zeroSign) (other : Bool) : v.IsSignedRounding r other :=
  ⟨h.isRounded, fun hzero => absurd hzero hr, h.sign⟩

theorem isSignedRounding_zero (negative : Bool) :
    (zero negative : Binary32).IsSignedRounding 0 negative := by
  have h := (isNearest_toRat (.zero : Magnitude .single)).isSignedRounding
    (toRat_nonneg _) negative
  rwa [toRat_zero, (withSign_eq_zero_iff negative).mpr rfl] at h

/-- A quotient of units is rounded to the nearest magnitude with a given sign. -/
theorem isSignedRounding_nearest (negative : Bool) (num : Nat) {den : Nat} (hden : 0 < den) :
    (signed negative (.nearest num den) : Binary32).IsSignedRounding
      (withSign negative (num / den / Format.single.one)) negative :=
  (isNearest_nearest (by decide) hden).isSignedRounding (by positivity) negative

theorem mul_isSignedRounding (ha : a.toRat? = some x) (hb : b.toRat? = some y) :
    (a.mul b).IsSignedRounding (x * y) (a.isNegative != b.isNegative) := by
  obtain ⟨s, m, rfl, hm, rfl⟩ := exists_magnitude_of_toRat? ha
  obtain ⟨t, n, rfl, hn, rfl⟩ := exists_magnitude_of_toRat? hb
  have hproduct : m.toRat * n.toRat =
      ((m.units * n.units : Nat) : ℚ) / Format.single.one / Format.single.one := by
    rw [toRat_eq_units_div, toRat_eq_units_div, div_mul_div_comm, Nat.cast_mul, div_div]
  have hmul : mul (signed s m) (signed t n) =
      signed (s != t) (.nearest (m.units * n.units) Format.single.one) := by
    simp [mul, hm, hn]
  rw [withSign_mul, hproduct, hmul]
  exact isSignedRounding_nearest (s != t) _ Format.single.one_pos

theorem div_isSignedRounding (ha : a.toRat? = some x) (hb : b.toRat? = some y) (hy : y ≠ 0) :
    (a.div b).IsSignedRounding (x / y) (a.isNegative != b.isNegative) := by
  obtain ⟨s, m, rfl, hm, rfl⟩ := exists_magnitude_of_toRat? ha
  obtain ⟨t, n, rfl, hn, rfl⟩ := exists_magnitude_of_toRat? hb
  have hpos : 0 < n.toRat :=
    lt_of_le_of_ne n.toRat_nonneg fun h => hy ((withSign_eq_zero_iff t).mpr h.symm)
  have hunits : 0 < n.units := by
    rw [toRat_eq_units_div, div_pos_iff_of_pos_right Format.single.one_pos_rat] at hpos
    exact_mod_cast hpos
  have hquotient : m.toRat / n.toRat =
      ((m.units * Format.single.one : Nat) : ℚ) / n.units / Format.single.one := by
    have hone := Format.single.one_pos_rat.ne'
    rw [toRat_eq_units_div, toRat_eq_units_div]
    push_cast
    field_simp
  have hdiv : div (signed s m) (signed t n) =
      signed (s != t) (.nearest (m.units * Format.single.one) n.units) := by
    simp [div, hm, hn, toRat_pos_iff.mp hpos]
  rw [withSign_div, hquotient, hdiv]
  exact isSignedRounding_nearest (s != t) _ hunits

/-- Only two negative zeros add up to a negative one. -/
theorem zeroSign_add {m n : Magnitude .single} {s t : Bool}
    (hsum : signedUnits s m + signedUnits t n = 0) :
    (signed s m == zero true && signed t n == zero true) = (s && t) := by
  cases s with
  | false => simp [zero]
  | true =>
    cases t with
    | false => simp [zero]
    | true =>
      have hnegative : -(m.units : Int) + -(n.units : Int) = 0 := hsum
      have hunits : m.units = 0 ∧ n.units = 0 := by omega
      obtain ⟨rfl, rfl⟩ : m = .zero ∧ n = .zero :=
        hunits.imp units_eq_zero_iff.mp units_eq_zero_iff.mp
      rfl

theorem add_isSignedRounding (ha : a.toRat? = some x) (hb : b.toRat? = some y) :
    (a.add b).IsSignedRounding (x + y) (a == zero true && b == zero true) := by
  obtain ⟨s, m, rfl, hm, rfl⟩ := exists_magnitude_of_toRat? ha
  obtain ⟨t, n, rfl, hn, rfl⟩ := exists_magnitude_of_toRat? hb
  let sum := signedUnits s m + signedUnits t n
  have hsum : withSign s m.toRat + withSign t n.toRat = (sum : ℚ) / Format.single.one := by
    rw [Int.cast_add, add_div, signedUnits_div_one, signedUnits_div_one]
  have hadd : add (signed s m) (signed t n) =
      if sum = 0 then zero (s && t) else signed (sum < 0) (.nearest sum.natAbs 1) := by
    simp [add, hm, hn, sum]
  rw [hsum, hadd]
  split_ifs with hzero
  · rw [zeroSign_add hzero, hzero, Int.cast_zero, zero_div]
    exact isSignedRounding_zero (s && t)
  · have hround := isSignedRounding_nearest (sum < 0) sum.natAbs Nat.one_pos
    rw [Nat.cast_one, div_one, div_eq_mul_inv, withSign_natAbs_mul, ← div_eq_mul_inv] at hround
    refine hround.of_ne_zero ?_ _
    exact div_ne_zero (Int.cast_ne_zero.mpr hzero) Format.single.one_pos_rat.ne'

theorem sub_isSignedRounding (ha : a.toRat? = some x) (hb : b.toRat? = some y) :
    (a.sub b).IsSignedRounding (x - y) (a == zero true && b == zero false) := by
  have hneg : (b.neg == zero true) = (b == zero false) := by
    rw [Bool.eq_iff_iff, beq_iff_eq, beq_iff_eq]
    exact neg_eq_zero_iff false
  have hadd := add_isSignedRounding ha (toRat?_neg hb)
  rwa [hneg, ← sub_eq_add_neg] at hadd

end BinaryFloat

end ReversePolish
