import ReversePolish.Proofs.Binary.Signed
import Mathlib.Order.Interval.Set.UnorderedInterval

/-! The numbers that are rounded to one value. With each of them all numbers between it and the
value are among them, so they form an interval, wherever its ends are and whether or not these
belong to it. A value other than zero has only numbers of its own sign rounded to it. -/

namespace ReversePolish.Binary

theorem abs_sub_of_mem_uIcc {a x y : ℚ} (h : y ∈ Set.uIcc a x) : |a - x| = |a - y| + |y - x| := by
  rcases Set.mem_uIcc.mp h with ⟨hleft, hright⟩ | ⟨hleft, hright⟩
  · rw [abs_of_nonpos (by linarith), abs_of_nonpos (by linarith), abs_of_nonpos (by linarith)]
    ring
  · rw [abs_of_nonneg (by linarith), abs_of_nonneg (by linarith), abs_of_nonneg (by linarith)]
    ring

theorem withSign_injective (negative : Bool) : Function.Injective (withSign negative) := by
  intro a b h
  have hdist := withSign_sub negative a b
  rw [h, sub_self, abs_zero] at hdist
  exact sub_eq_zero.mp (abs_eq_zero.mp hdist.symm)

namespace Magnitude

variable {f : Format} {x y : ℚ}

theorem toRat_injective : Function.Injective (toRat : Magnitude f → ℚ) := fun _ _ h =>
  ext (f.ratOfRank_strictMono.injective h)

/-- What lies between a magnitude and a number that it is nearest to has it as nearest, too. -/
theorem IsNearest.of_mem_uIcc {m : Magnitude f} (h : IsNearest x m) (hy : y ∈ Set.uIcc m.toRat x) :
    IsNearest y m := by
  have hsplit := abs_sub_of_mem_uIcc hy
  have htriangle : ∀ m' : Magnitude f, |m'.toRat - x| ≤ |m'.toRat - y| + |y - x| := fun m' =>
    abs_sub_le m'.toRat y x
  constructor
  · intro m'
    have hle := h.le m'
    have := htriangle m'
    linarith
  · intro m' hne htie
    refine h.even m' hne (le_antisymm ?_ (h.le m'))
    have := htriangle m'
    linarith

variable {m m' : Magnitude .single} {negative sign : Bool}

theorem abs_lt_of_isRounded (h : (BinaryFloat.signed negative m).IsRounded x)
    (hfinite : m.isInfinite = false) : |x| < 2 ^ 128 - 2 ^ 103 := by
  by_contra hle
  have hinf := h.overflow (not_lt.mp hle)
  injection hinf with _ hm
  rw [hm] at hfinite
  cases hfinite

theorem sign_eq_of_isClosest (h : (BinaryFloat.signed negative m).IsClosest (withSign sign y))
    (hy : 0 ≤ y) (hzero : m.isZero = false) : sign = negative := by
  obtain ⟨q, hq, hle⟩ := h
  obtain ⟨-, hq⟩ := Option.ite_none_left_eq_some.mp hq
  cases hq
  by_contra hne
  obtain rfl : negative = !sign := Bool.eq_not.mpr (Ne.symm hne)
  -- Zero would be closer.
  have hcloser := (hle (.zero (!sign)) (withSign (!sign) (zero : Magnitude .single).toRat) rfl).1
  rw [withSign_not_sub sign m.toRat_nonneg hy, withSign_not_sub sign zero.toRat_nonneg hy,
    toRat_zero] at hcloser
  have hpos := toRat_pos_iff.mpr hzero
  linarith

/-- A number that is rounded to a value other than zero has the value's sign, and the nearest
magnitude to it is the value's. -/
theorem IsNearest.eq_of_isRounded (hm' : IsNearest y m') (hy : 0 ≤ y)
    (h : (BinaryFloat.signed negative m).IsRounded (withSign sign y))
    (hfinite : m.isInfinite = false) (hzero : m.isZero = false) : sign = negative ∧ m' = m := by
  have hlt := abs_lt_of_isRounded h hfinite
  have hclosest := h.closest hlt
  obtain rfl := sign_eq_of_isClosest hclosest hy hzero
  refine ⟨rfl, ?_⟩
  rw [abs_withSign, abs_of_nonneg hy] at hlt
  have hfinite' : m'.isInfinite = false := by
    have hinf := hm'.eq_infinity_iff (by decide)
    rw [Format.single_midpoint_top] at hinf
    rw [isInfinite, beq_eq_false_iff_ne]
    exact fun htop => hlt.not_ge (hinf.mp (ext htop))
  obtain ⟨q, hq, hle⟩ := hclosest
  obtain ⟨-, hq⟩ := Option.ite_none_left_eq_some.mp hq
  cases hq
  obtain ⟨hdist, heven⟩ := hle (.signed sign m') (withSign sign m'.toRat)
    (if_neg (by simp [hfinite']))
  rw [withSign_sub, withSign_sub] at hdist heven
  have htie : |m'.toRat - y| = |m.toRat - y| := le_antisymm (hm'.le m) hdist
  by_contra hne
  have hrank : Even m.rank := by
    refine (even_significand (by decide)).mp (heven (fun heq => hne ?_) htie)
    exact toRat_injective (withSign_injective sign heq)
  have hm : IsNearest y m := ⟨fun n => htie ▸ hm'.le n, fun _ _ _ => hrank⟩
  exact hne (hm'.unique hm)

end Magnitude

end ReversePolish.Binary
