import ReversePolish.Proofs.Decimal.Minimal

/-! How many digits are enough. The numbers that round to a value reach away from it by a fixed
share of the value at least. A grid that is finer than this share has a point among them, so the
shortest decimal has no more digits than that grid leaves: nine in single precision, and
seventeen in double. -/

namespace ReversePolish.Binary

variable {f : Format}

section Gap

/-- The step up to a value is at least the value's share in a significand. -/
theorem Format.ratOfRank_succ_le (f : Format) (rank : Nat) :
    f.ratOfRank (rank + 1) ≤
      2 * f.binade * (f.ratOfRank (rank + 1) - f.ratOfRank rank) := by
  obtain ⟨k, h, rfl, hk, hh⟩ := f.exists_significand rank
  have hnext : k + h * f.binade + 1 = k + 1 + h * f.binade := by omega
  have hsignificand : ((k + 1 : Nat) : ℚ) ≤ 2 * f.binade := by exact_mod_cast hk
  have hscale : (0 : ℚ) ≤ 2 ^ h / f.one := div_nonneg (by positivity) f.one_pos_rat.le
  rw [hnext, ratOfRank, ratOfRank, f.unitsOfRank_add_mul (by omega) hh,
    f.unitsOfRank_add_mul (by omega) (hh.imp_right Nat.le_succ_of_le)]
  calc (((k + 1) * 2 ^ h : Nat) : ℚ) / f.one = (k + 1 : Nat) * (2 ^ h / f.one) := by
        push_cast
        ring
    _ ≤ 2 * f.binade * (2 ^ h / f.one) := mul_le_mul_of_nonneg_right hsignificand hscale
    _ = _ := by
        push_cast
        ring

namespace Magnitude

variable {m m' : Magnitude f} {x : ℚ}

/-- A number that is closer to a value than half of its share is rounded to it. -/
theorem IsNearest.eq_of_abs_lt (h : IsNearest x m')
    (hclose : 4 * f.binade * |x - m.toRat| < m.toRat) : m' = m := by
  have hstep : ∀ step, step / 2 ≤ |x - m.toRat| → 2 * f.binade * step < m.toRat := by
    intro step hle
    have hmul := mul_le_mul_of_nonneg_left hle (by positivity : (0 : ℚ) ≤ 4 * f.binade)
    linarith
  have htop := m.rank_le_top
  rcases lt_trichotomy m'.rank m.rank with hlt | heq | hgt
  · obtain ⟨rank, hrank⟩ := Nat.exists_eq_succ_of_ne_zero (Nat.ne_zero_of_lt hlt)
    have hmid : x ≤ f.midpoint rank := h.le_midpoint (by omega) (by omega)
    have hvalue : m.toRat = f.ratOfRank (rank + 1) := congrArg f.ratOfRank hrank
    have hshare := f.ratOfRank_succ_le rank
    rw [← hvalue] at hshare
    refine absurd (hstep (m.toRat - f.ratOfRank rank) ?_) hshare.not_gt
    rw [Format.midpoint, ← hvalue] at hmid
    rw [abs_sub_comm]
    exact le_abs.mpr (.inl (by linarith))
  · exact ext heq
  · have hmid := h.midpoint_le hgt
    have hshare := f.ratOfRank_succ_le m.rank
    have hnext := f.ratOfRank_strictMono (Nat.lt_succ_self m.rank)
    refine absurd (hstep (f.ratOfRank (m.rank + 1) - m.toRat) ?_) (hnext.trans_le hshare).not_gt
    rw [Format.midpoint] at hmid
    refine le_abs.mpr (.inl ?_)
    rw [toRat]
    linarith

end Magnitude

end Gap

namespace Magnitude

variable {m : Magnitude f}

section Digits

/-- Each grid has a point at most half its step away. -/
theorem exists_gridPoint_within (m : Magnitude f) (places : Nat) :
    ∃ k, 2 * |(gridPoint f places k).toRat - m.toRat| ≤ 10 ^ places / 10 ^ f.unitExponent := by
  have hsplit := Nat.div_add_mod' m.exactCoefficient (10 ^ places)
  have hrest := Nat.mod_lt m.exactCoefficient (Nat.pow_pos (n := places) (show 0 < 10 by decide))
  obtain ⟨k, hk⟩ : ∃ k, 2 * ((k * 10 ^ places : Nat) - m.exactCoefficient : Int).natAbs ≤
      10 ^ places := by
    rcases Nat.lt_or_ge (10 ^ places) (2 * (m.exactCoefficient % 10 ^ places)) with hlt | hge
    · have hnext : (m.exactCoefficient / 10 ^ places + 1) * 10 ^ places =
          m.exactCoefficient / 10 ^ places * 10 ^ places + 10 ^ places := Nat.succ_mul ..
      exact ⟨m.exactCoefficient / 10 ^ places + 1, by omega⟩
    · exact ⟨m.exactCoefficient / 10 ^ places, by omega⟩
  refine ⟨k, ?_⟩
  rw [abs_gridPoint_sub, ← mul_div_assoc]
  exact div_le_div_of_nonneg_right (by exact_mod_cast hk) (by positivity)

/-- A significand of no more than the given number of digits is told from its neighbours by one
digit more. -/
theorem length_digits_shortest_le (hbits : 0 < f.fractionBits) (hzero : m.isZero = false) {n : Nat}
    (hn : 2 * f.binade < 10 ^ n) : m.shortest.digits.length ≤ n + 1 := by
  obtain ⟨place, hlength, hplace, -, hnone⟩ := m.exists_place_shortest
  rcases Nat.lt_or_ge (n + 1) m.exactLength with hlong | hshort
  · obtain ⟨places, hplaces⟩ := Nat.exists_eq_add_of_le hlong.le
    obtain ⟨k, hk⟩ := m.exists_gridPoint_within places
    have hleading : (10 : ℚ) ^ places / 10 ^ f.unitExponent * 10 ^ n ≤ m.toRat := by
      have hpow := pow_le_exactCoefficient (exactCoefficient_pos hzero)
      have hsum : m.exactLength - 1 = places + n := by omega
      rw [hsum] at hpow
      rw [toRat_eq_exact, div_mul_eq_mul_div, ← pow_add]
      exact div_le_div_of_nonneg_right (by exact_mod_cast hpow) (by positivity)
    have hclose : 4 * f.binade * |(gridPoint f places k).toRat - m.toRat| < m.toRat := by
      have hstep : (0 : ℚ) < 10 ^ places / 10 ^ f.unitExponent := by positivity
      have hbinade : (0 : ℚ) ≤ 2 * f.binade := by positivity
      have hn' : (2 * f.binade : ℚ) < 10 ^ n := by exact_mod_cast hn
      calc 4 * f.binade * |(gridPoint f places k).toRat - m.toRat|
          = 2 * f.binade * (2 * |(gridPoint f places k).toRat - m.toRat|) := by ring
        _ ≤ 2 * f.binade * (10 ^ places / 10 ^ f.unitExponent) :=
            mul_le_mul_of_nonneg_left hk hbinade
        _ < 10 ^ n * (10 ^ places / 10 ^ f.unitExponent) := mul_lt_mul_of_pos_right hn' hstep
        _ ≤ m.toRat := by rwa [mul_comm]
    have hread : (gridPoint f places k).nearest = m :=
      ((gridPoint f places k).isNearest_nearest hbits).eq_of_abs_lt hclose
    obtain ⟨hit, hhit, -⟩ := exists_onGrid hbits hread
    have hle : places ≤ place := by
      by_contra hlt
      rw [hnone places (by omega) (not_le.mp hlt)] at hhit
      cases hhit
    omega
  · omega

end Digits

end Magnitude

end ReversePolish.Binary
