import ReversePolish.Proofs.Decimal.Minimal
import ReversePolish.Proofs.Display.RoundTrip
import ReversePolish.Proofs.Token.Rounding

/-! Values are written with the fewest digits. The number that is written rounds to the value,
no number of fewer significant digits does, and none of as many digits that does is closer to
the value. It competes with all decimals, and nothing is assumed about where the value stands
in its binade. -/

namespace ReversePolish

open Binary
open Literal (LiteralText)

/-- The number is a whole one of at most `n` digits, times a power of ten. -/
def HasDigits (n : Nat) (x : ℚ) : Prop := ∃ c e : ℤ, c.natAbs < 10 ^ n ∧ x = c * 10 ^ e

/-- The number of `n` digits rounds to the value `q`, none of fewer digits does, and of those
of `n` digits that do it is closest. -/
structure BinaryFloat.IsShortest (v : Binary32) (q : ℚ) (n : Nat) (x : ℚ) : Prop where
  hasDigits : HasDigits n x
  isRounded : v.IsRounded x
  fewest : ∀ k < n, ∀ y, HasDigits k y → ¬v.IsRounded y
  closest : ∀ y, HasDigits n y → v.IsRounded y → |x - q| ≤ |y - q|

section Decimals

variable {n : Nat} {x : ℚ}

theorem HasDigits.exists_decimal (h : HasDigits n x) :
    ∃ sign, ∃ d : Decimal, d.coefficient < 10 ^ n ∧ x = withSign sign d.toRat := by
  obtain ⟨c, e, hc, rfl⟩ := h
  exact ⟨decide (c < 0), ⟨c.natAbs, e⟩, hc, (withSign_natAbs_mul c _).symm⟩

theorem hasDigits_withSign (negative : Bool) (d : Decimal) :
    HasDigits d.digits.length (withSign negative d.toRat) := by
  let c : ℤ := Nat.ofDigitChars 10 d.digits 0
  refine ⟨if negative then -c else c, d.point - d.digits.length, ?_, ?_⟩
  · have habs : (if negative then -c else c).natAbs = Nat.ofDigitChars 10 d.digits 0 := by
      cases negative
      · rfl
      · exact Int.natAbs_neg c
    rw [habs]
    exact d.ofDigitChars_digits_lt
  · rw [d.toRat_eq_digits]
    cases negative <;> simp [withSign, c]

end Decimals

section Written

variable {m : Magnitude .single} {d : Decimal} {negative sign : Bool}

/-- Decimals that round to a value are those that read back as its magnitude, with its sign. -/
theorem isRounded_withSign_iff (hfinite : m.isInfinite = false) (hzero : m.isZero = false) :
    (BinaryFloat.signed negative m).IsRounded (withSign sign d.toRat) ↔
      sign = negative ∧ d.nearest = m := by
  have hnearest : (d.nearest : Magnitude .single).IsNearest d.toRat :=
    d.isNearest_nearest (by decide)
  constructor
  · exact fun h => hnearest.eq_of_isRounded d.toRat_nonneg h hfinite hzero
  · rintro ⟨rfl, rfl⟩
    exact hnearest.isRounded d.toRat_nonneg sign

theorem isShortest_shortest (negative : Bool) (hfinite : m.isInfinite = false)
    (hzero : m.isZero = false) :
    (BinaryFloat.signed negative m).IsShortest (withSign negative m.toRat)
      m.shortest.digits.length (withSign negative m.shortest.toRat) where
  hasDigits := hasDigits_withSign negative m.shortest
  isRounded := (isRounded_withSign_iff hfinite hzero).mpr ⟨rfl, m.nearest_shortest⟩
  fewest k hk y hy hround := by
    obtain ⟨sign, d, hc, rfl⟩ := hy.exists_decimal
    obtain ⟨rfl, hd⟩ := (isRounded_withSign_iff hfinite hzero).mp hround
    exact Magnitude.nearest_ne_of_lt (by decide) hzero hk hc hd
  closest y hy hround := by
    obtain ⟨sign, d, hc, rfl⟩ := hy.exists_decimal
    obtain ⟨rfl, hd⟩ := (isRounded_withSign_iff hfinite hzero).mp hround
    rw [withSign_sub, withSign_sub]
    exact Magnitude.shortest_closest (by decide) hzero hc hd

theorem NumberStyle.magnitude_of_finite (hfinite : m.isInfinite = false)
    (hzero : m.isZero = false) : plain.magnitude m = m.shortest.positional [] := by
  rcases magnitude_cases m with ⟨rfl, -⟩ | ⟨rfl, -⟩ | hpositional
  · cases hfinite
  · cases hzero
  · exact hpositional

theorem BinaryFloat.toRat?_eq_some {v : Binary32} {q : ℚ} (hv : v.toRat? = some q) (hq : q ≠ 0) :
    ∃ negative m, v = .signed negative m ∧ q = withSign negative m.toRat ∧
      m.isInfinite = false ∧ m.isZero = false := by
  obtain ⟨negative, m, rfl, hfinite, rfl⟩ := exists_magnitude_of_toRat? hv
  have hne : 0 ≠ m.toRat := fun h => hq ((withSign_eq_zero_iff negative).mpr h.symm)
  have hpos : 0 < m.toRat := lt_of_le_of_ne m.toRat_nonneg hne
  exact ⟨negative, m, rfl, rfl, hfinite, Magnitude.toRat_pos_iff.mp hpos⟩

/-- A finite value other than zero is written as a decimal with the fewest significant digits
that rounds to it, and there is no closer one of as many digits. -/
theorem NumberStyle.plain_write_isShortest {v : Binary32} {q : ℚ} (hv : v.toRat? = some q)
    (hq : q ≠ 0) :
    ∃ w, LiteralText (plain.write v) (.decimal w) ∧
      v.IsShortest q (Text.significant (plain.write v)).length w.toRat := by
  obtain ⟨negative, m, rfl, rfl, hfinite, hzero⟩ := BinaryFloat.toRat?_eq_some hv hq
  have hcoefficient := Magnitude.coefficient_ne_zero hzero m.nearest_shortest
  have hsign : (writtenSign negative).filter Char.isDigit = [] := by
    cases negative <;> rfl
  have htext : plain.write (.signed negative m) =
      writtenSign negative ++ m.shortest.positional [] := by
    rw [write_signed, magnitude_of_finite hfinite hzero]
  have hvalue : (m.shortest.written negative).toRat = withSign negative m.shortest.toRat := by
    rw [WrittenDecimal.toRat, Decimal.written_negative, Decimal.toRat_written]
  refine ⟨m.shortest.written negative, ?_, ?_⟩
  · rw [htext]
    refine .decimal _ _ _ ?_ (m.shortest.decimalText_positional negative)
    rw [Decimal.written_negative]
    exact signText_writtenSign negative
  · rw [htext, Decimal.significant_positional hcoefficient hsign, hvalue]
    exact isShortest_shortest negative hfinite hzero

/-- The closest number of eight digits to `2 ^ 90` is below it and rounds to the value before,
since the gap below a power of two is half of that above. The one that is written is above. -/
theorem NumberStyle.plain_write_isShortest_above :
    let v : Binary32 := .ofBits 0x6c800000
    v.toRat? = some (2 ^ 90) ∧ (2 ^ 90 : ℚ) ≠ 0 ∧
      ∃ w, LiteralText "1237940100000000000000000000".toList (.decimal w) ∧
        v.IsShortest (2 ^ 90) 8 w.toRat := by
  intro v
  have hunits : Format.single.unitsOfRank 0x6c800000 = 2 ^ 239 := by decide +kernel
  have hone : Format.single.one = 2 ^ 149 := rfl
  have hvalue : Format.single.ratOfRank 0x6c800000 = 2 ^ 90 := by
    rw [Format.ratOfRank, hunits, hone]
    norm_num
  have hv : v.toRat? = some (2 ^ 90) := congrArg some hvalue
  have hq : (2 ^ 90 : ℚ) ≠ 0 := by norm_num
  have htext : plain.write v = "1237940100000000000000000000".toList := by decide +kernel
  have hshortest := NumberStyle.plain_write_isShortest hv hq
  rw [htext] at hshortest
  exact ⟨hv, hq, hshortest⟩

end Written

end ReversePolish
