import ReversePolish.Proofs.Binary.Interval
import ReversePolish.Proofs.Decimal.Shortest

/-! The grids of the search for the shortest decimal. A grid has a hit exactly if any of its
points reads back as the magnitude, and the hit is the closest of these. A decimal of few
digits that reads back is on the grid, or has a point of it between itself and the magnitude. -/

namespace ReversePolish.Binary.Magnitude

variable {f : Format} {m : Magnitude f} {d : Decimal} {places k : Nat}

section Distance

theorem toRat_gridPoint (f : Format) (places k : Nat) :
    (gridPoint f places k).toRat = (k * 10 ^ places : Nat) / 10 ^ f.unitExponent := by
  rw [Decimal.toRat, gridPoint, zpow_sub₀ (by decide), zpow_natCast, zpow_natCast]
  push_cast
  ring

theorem toRat_eq_exact (m : Magnitude f) :
    m.toRat = m.exactCoefficient / 10 ^ f.unitExponent := by
  have hpoint := toRat_gridPoint f 0 m.exactCoefficient
  rw [gridPoint_toRat, Nat.pow_zero, Nat.mul_one] at hpoint
  exact hpoint

theorem exactCoefficient_pos (hzero : m.isZero = false) : 0 < m.exactCoefficient := by
  have hpos := toRat_pos_iff.mpr hzero
  rw [toRat_eq_exact] at hpos
  by_contra hle
  rw [Nat.eq_zero_of_not_pos hle] at hpos
  simp at hpos

theorem abs_gridPoint_sub (m : Magnitude f) (places k : Nat) :
    |(gridPoint f places k).toRat - m.toRat| =
      ((k * 10 ^ places : Nat) - m.exactCoefficient : Int).natAbs / 10 ^ f.unitExponent := by
  have hscale : (0 : ℚ) < 10 ^ f.unitExponent := by positivity
  rw [toRat_gridPoint, toRat_eq_exact, ← sub_div, abs_div, abs_of_pos hscale, Nat.cast_natAbs]
  push_cast
  rfl

theorem abs_gridPoint_sub_le {k' : Nat}
    (h : ((k' * 10 ^ places : Nat) - m.exactCoefficient : Int).natAbs ≤
      ((k * 10 ^ places : Nat) - m.exactCoefficient : Int).natAbs) :
    |(gridPoint f places k').toRat - m.toRat| ≤ |(gridPoint f places k).toRat - m.toRat| := by
  rw [abs_gridPoint_sub, abs_gridPoint_sub]
  exact div_le_div_of_nonneg_right (Nat.cast_le.mpr h) (by positivity)

theorem gridPoint_le_iff {n : Nat} :
    (gridPoint f places k).toRat ≤ n / 10 ^ f.unitExponent ↔ k * 10 ^ places ≤ n := by
  rw [toRat_gridPoint, div_le_div_iff_of_pos_right (by positivity), Nat.cast_le]

theorem le_gridPoint_iff {n : Nat} :
    n / 10 ^ f.unitExponent ≤ (gridPoint f places k).toRat ↔ n ≤ k * 10 ^ places := by
  rw [toRat_gridPoint, div_le_div_iff_of_pos_right (by positivity), Nat.cast_le]

end Distance

section Hit

/-- Whatever lies between a decimal and the magnitude that it reads back as does so, too. -/
theorem nearest_of_mem_uIcc (hbits : 0 < f.fractionBits) {d' : Decimal} (hd : d.nearest = m)
    (h : d'.toRat ∈ Set.uIcc m.toRat d.toRat) : d'.nearest = m := by
  have hnear : IsNearest d.toRat m := hd ▸ d.isNearest_nearest hbits
  exact (d'.isNearest_nearest hbits).unique (hnear.of_mem_uIcc h)

/-- Of the grid's points that read back, one of the two beside the magnitude is closest. -/
theorem exists_beside (hbits : 0 < f.fractionBits) (hk : (gridPoint f places k).nearest = m) :
    ∃ k', (k' = m.exactCoefficient / 10 ^ places ∨ k' = m.exactCoefficient / 10 ^ places + 1) ∧
      (gridPoint f places k').nearest = m ∧
      |(gridPoint f places k').toRat - m.toRat| ≤ |(gridPoint f places k).toRat - m.toRat| := by
  have hpow : 0 < 10 ^ places := Nat.pow_pos (by decide)
  have hrest := Nat.mod_lt m.exactCoefficient hpow
  have hsplit := Nat.div_add_mod' m.exactCoefficient (10 ^ places)
  have hnext : (m.exactCoefficient / 10 ^ places + 1) * 10 ^ places =
      m.exactCoefficient / 10 ^ places * 10 ^ places + 10 ^ places := Nat.succ_mul ..
  rcases Nat.lt_or_ge (m.exactCoefficient / 10 ^ places) k with hlt | hge
  · have hmul : (m.exactCoefficient / 10 ^ places + 1) * 10 ^ places ≤ k * 10 ^ places :=
      Nat.mul_le_mul_right _ hlt
    refine ⟨m.exactCoefficient / 10 ^ places + 1, .inr rfl, nearest_of_mem_uIcc hbits hk ?_,
      abs_gridPoint_sub_le (by omega)⟩
    rw [toRat_eq_exact, toRat_gridPoint f places k]
    exact Set.mem_uIcc.mpr (.inl ⟨le_gridPoint_iff.mpr (by omega), gridPoint_le_iff.mpr hmul⟩)
  · have hmul := Nat.mul_le_mul_right (10 ^ places) hge
    refine ⟨m.exactCoefficient / 10 ^ places, .inl rfl, nearest_of_mem_uIcc hbits hk ?_,
      abs_gridPoint_sub_le (by omega)⟩
    rw [toRat_eq_exact, toRat_gridPoint f places k]
    exact Set.mem_uIcc.mpr (.inr ⟨le_gridPoint_iff.mpr hmul, gridPoint_le_iff.mpr (by omega)⟩)

/-- If a point of the grid reads back there is a hit, and none of them is closer than it. -/
theorem exists_onGrid (hbits : 0 < f.fractionBits) (hk : (gridPoint f places k).nearest = m) :
    ∃ d, m.onGrid places = some d ∧
      |d.toRat - m.toRat| ≤ |(gridPoint f places k).toRat - m.toRat| := by
  let below := m.exactCoefficient / 10 ^ places
  let nearer := roundHalfEven m.exactCoefficient (10 ^ places)
  have hgrid : m.onGrid places = ([nearer, below, below + 1].map (gridPoint f places)).find?
      (·.nearest = m) := rfl
  rw [hgrid, List.map_cons, List.map_cons, List.map_cons]
  by_cases hnearer : (gridPoint f places nearer).nearest = m
  · refine ⟨_, List.find?_cons_of_pos (decide_eq_true hnearer), abs_gridPoint_sub_le ?_⟩
    exact natAbs_roundHalfEven_sub_le (Nat.pow_pos (by decide)) _ k
  · obtain ⟨k', hbeside, hread, hle⟩ := exists_beside hbits hk
    have hlow : below ≤ nearer := div_le_roundHalfEven ..
    have hhigh : nearer ≤ below + 1 := roundHalfEven_le_div_add_one ..
    have hne : nearer ≠ k' := fun heq => hnearer (heq ▸ hread)
    refine ⟨_, ?_, hle⟩
    rw [List.find?_cons_of_neg (by simpa using hnearer)]
    rcases hbeside with rfl | rfl
    · exact List.find?_cons_of_pos (decide_eq_true hread)
    · -- Then the nearer point is the one below.
      have hbelow : nearer = below := by omega
      rw [List.find?_cons_of_neg (by simpa [← hbelow] using hnearer)]
      exact List.find?_cons_of_pos (decide_eq_true hread)

end Hit

section Digits

/-- The number of digits of the exact coefficient. -/
def exactLength (m : Magnitude f) : Nat := (Nat.toDigits 10 m.exactCoefficient).length

theorem exactLength_pos (m : Magnitude f) : 0 < m.exactLength := Nat.length_toDigits_pos

theorem exactCoefficient_lt_pow (m : Magnitude f) : m.exactCoefficient < 10 ^ m.exactLength :=
  (Nat.length_toDigits_le_iff (by decide) m.exactLength_pos).mp le_rfl

/-- A number is at least the power of ten that its first digit stands for. -/
theorem pow_length_toDigits_le {n : Nat} (hn : 0 < n) :
    10 ^ ((Nat.toDigits 10 n).length - 1) ≤ n := by
  rcases Nat.eq_zero_or_pos ((Nat.toDigits 10 n).length - 1) with hzero | hlength
  · rw [hzero]
    exact hn
  · by_contra hlt
    have hle := (Nat.length_toDigits_le_iff (by decide) hlength).mpr (Nat.lt_of_not_le hlt)
    omega

theorem pow_le_exactCoefficient (hpos : 0 < m.exactCoefficient) :
    10 ^ (m.exactLength - 1) ≤ m.exactCoefficient := pow_length_toDigits_le hpos

/-- A decimal whose digits end no later than the grid's place is one of the grid's points. -/
theorem exists_gridPoint_eq (f : Format) (h : (places - f.unitExponent : Int) ≤ d.exponent) :
    ∃ k, (gridPoint f places k).toRat = d.toRat := by
  obtain ⟨zeros, hzeros⟩ := Int.eq_ofNat_of_zero_le (sub_nonneg.mpr h)
  have hexponent : d.exponent = zeros + (places - f.unitExponent : Int) := by omega
  refine ⟨d.coefficient * 10 ^ zeros, ?_⟩
  rw [Decimal.toRat, Decimal.toRat, gridPoint, hexponent, zpow_add₀ (by decide), zpow_natCast]
  push_cast
  ring

/-- A decimal with digits behind the grid's place, but not more than there are before it, is
below the power of ten that the magnitude starts with. -/
theorem toRat_le_leading {digits : Nat} (hc : d.coefficient < 10 ^ digits)
    (hdigits : digits + places ≤ m.exactLength) (h : d.exponent < places - f.unitExponent) :
    d.toRat ≤ (10 ^ (m.exactLength - 1) : Nat) / 10 ^ f.unitExponent := by
  have hlength := m.exactLength_pos
  have hscale : ((10 ^ (m.exactLength - 1) : Nat) / 10 ^ f.unitExponent : ℚ) =
      10 ^ ((m.exactLength - 1 : Nat) - f.unitExponent : Int) := by
    rw [zpow_sub₀ (by decide), zpow_natCast, zpow_natCast]
    push_cast
    rfl
  have hcoefficient : (d.coefficient : ℚ) ≤ 10 ^ (digits : Int) := by
    rw [zpow_natCast]
    exact_mod_cast hc.le
  calc d.toRat ≤ 10 ^ (digits : Int) * 10 ^ d.exponent :=
        mul_le_mul_of_nonneg_right hcoefficient (zpow_nonneg (by decide) _)
    _ = 10 ^ (digits + d.exponent) := (zpow_add₀ (by decide) _ _).symm
    _ ≤ 10 ^ ((m.exactLength - 1 : Nat) - f.unitExponent : Int) :=
        zpow_le_zpow_right₀ (by decide) (by omega)
    _ = (10 ^ (m.exactLength - 1) : Nat) / 10 ^ f.unitExponent := hscale.symm

/-- A decimal of no more digits than the magnitude has before the grid's place, and which reads
back, is no closer to the magnitude than a point of the grid that reads back. -/
theorem exists_gridPoint (hbits : 0 < f.fractionBits) (hpos : 0 < m.exactCoefficient)
    {digits : Nat} (hd : d.nearest = m) (hc : d.coefficient < 10 ^ digits)
    (hplaces : places < m.exactLength) (hdigits : digits + places ≤ m.exactLength) :
    ∃ k, (gridPoint f places k).nearest = m ∧
      |(gridPoint f places k).toRat - m.toRat| ≤ |d.toRat - m.toRat| := by
  rcases le_or_gt (places - f.unitExponent : Int) d.exponent with hge | hlt
  · obtain ⟨k, hk⟩ := exists_gridPoint_eq f hge
    exact ⟨k, (Decimal.nearest_congr hk).trans hd, by rw [hk]⟩
  · -- The power of ten lies between the two.
    have hpower : 10 ^ (m.exactLength - 1 - places) * 10 ^ places = 10 ^ (m.exactLength - 1) := by
      rw [← Nat.pow_add]
      congr 1
      omega
    have hpoint := toRat_gridPoint f places (10 ^ (m.exactLength - 1 - places))
    rw [hpower] at hpoint
    have hbelow : (gridPoint f places (10 ^ (m.exactLength - 1 - places))).toRat ≤ m.toRat := by
      rw [toRat_eq_exact, gridPoint_le_iff, hpower]
      exact pow_le_exactCoefficient hpos
    have habove := hpoint ▸ toRat_le_leading hc hdigits hlt
    refine ⟨_, nearest_of_mem_uIcc hbits hd (Set.mem_uIcc.mpr (.inr ⟨habove, hbelow⟩)), ?_⟩
    rw [abs_of_nonpos (sub_nonpos.mpr hbelow), abs_of_nonpos (sub_nonpos.mpr (habove.trans hbelow))]
    linarith

end Digits

end ReversePolish.Binary.Magnitude
