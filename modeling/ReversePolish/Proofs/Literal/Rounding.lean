import ReversePolish.Literal
import ReversePolish.Proofs.Decimal.Correction

/-! A decimal that has a value is rounded once, although it is computed in two steps. Digits
that are converted correct the second step. The others need no correction: double precision
puts them at zero or beyond single precision, and neither is midway between two values. -/

namespace ReversePolish

open Binary

namespace WrittenDecimal

variable {w : WrittenDecimal}

theorem isConverted_iff_lt : w.isConverted ↔
    0 < (w.toDecimal.nearest : Magnitude .double).toRat ∧
      (w.toDecimal.nearest : Magnitude .double).toRat < 2 ^ 128 := by
  rw [Magnitude.toRat_pos_iff, Magnitude.toRat_lt_pow_iff]
  simp [isConverted]

theorem exists_guess (w : WrittenDecimal) : ∃ guess : Magnitude .single,
    w.guess = .signed w.negative guess ∧
      guess.IsNearest (w.toDecimal.nearest : Magnitude .double).toRat :=
  Magnitude.exists_convert (by decide) Format.single_refines_double _ _

/-- What is not converted is midway between no two values. -/
theorem ne_midpoint (h : w.isConverted = false) {rank : Nat} (hrank : rank < Format.single.top) :
    (w.toDecimal.nearest : Magnitude .double).toRat ≠ Format.single.midpoint rank := by
  intro hmid
  have hpos := Format.single.midpoint_pos rank
  have hlt := Format.single.midpoint_lt_top hrank
  rw [← hmid] at hpos hlt
  rw [Format.single_ratOfRank_top] at hlt
  rw [isConverted_iff_lt.mpr ⟨hpos, hlt⟩] at h
  cases h

/-- Whether it is corrected or not, the result is the nearest value. -/
theorem rounded_eq (w : WrittenDecimal) :
    w.rounded = .signed w.negative w.toDecimal.nearest := by
  obtain ⟨guess, hguess, hnear⟩ := w.exists_guess
  have hrefines := Format.single_refines_double
  have hwide : (w.toDecimal.nearest : Magnitude .double).IsNearest w.toDecimal.toRat :=
    w.toDecimal.isNearest_nearest (by decide)
  have hm : (w.toDecimal.nearest : Magnitude .single).IsNearest w.toDecimal.toRat :=
    w.toDecimal.isNearest_nearest (by decide)
  rw [rounded, hguess]
  cases hconverted : w.isConverted with
  | true =>
    obtain ⟨hup, hdown⟩ := hwide.rank_le_succ hrefines hnear hm
    exact Decimal.correct_eq (by decide) (by decide) hm hup hdown
  | false =>
    rw [hwide.eq_of_ne_midpoint hrefines hnear hm fun _ => ne_midpoint hconverted]
    rfl

-- Just below a midpoint, where double precision ends at the midpoint itself.
example : let w : WrittenDecimal := ⟨false, ['1'], "00000017881393432617187499".toList, false, []⟩
    w.guess = .signed false ⟨1065353218, by decide⟩ ∧
      w.rounded = .signed false ⟨1065353217, by decide⟩ := by decide +kernel

theorem value_eq_ok {v : Binary32} (h : w.value = .ok v) : v = w.rounded := by
  unfold value at h
  split at h
  · cases h
  · exact (Except.ok.inj h).symm

/-- A number whose groups are short enough has its nearest value. -/
theorem value_of_not_overlong (h : ∀ s ∈ w.groups, overlong s = false) :
    w.value = .ok (.signed w.negative w.toDecimal.nearest) := by
  have hnone : w.groups.find? overlong = none :=
    List.find?_eq_none.mpr fun s hs => by simp [h s hs]
  rw [value, hnone, ← w.rounded_eq]

end WrittenDecimal

end ReversePolish
