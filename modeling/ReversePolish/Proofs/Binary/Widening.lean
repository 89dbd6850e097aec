import ReversePolish.Proofs.Binary.Interval

/-! Values of one format in a finer one. Conversion to the finer format is exact. A number that
the finer format rounds to such a value is nowhere near the midpoints of the coarser format, so
the coarser format rounds it to the value as well: nothing is lost on the way through the finer
format, whatever the number. -/

namespace ReversePolish.Binary.Magnitude

variable {f g : Format} {x : ℚ} {m m' : Magnitude f} {wide : Magnitude g}

theorem isNearest_toRat (m : Magnitude f) : IsNearest m.toRat m where
  le m' := by
    rw [sub_self, abs_zero]
    exact abs_nonneg _
  even m' hne htie := by
    rw [sub_self, abs_zero, abs_eq_zero, sub_eq_zero] at htie
    exact absurd (toRat_injective htie) hne

theorem toRat_ne_midpoint (m : Magnitude f) (rank : Nat) : m.toRat ≠ f.midpoint rank := by
  intro h
  have hlow := f.ratOfRank_lt_midpoint rank
  have hhigh := f.midpoint_lt_ratOfRank rank
  rw [← h, toRat, f.ratOfRank_strictMono.lt_iff_lt] at hlow hhigh
  omega

/-- What the finer format rounds to a value of the coarser one, the coarser one rounds to it. -/
theorem IsNearest.narrow (hfg : f.Refines g) (hwide : IsNearest x wide)
    (hvalue : wide.toRat = m.toRat) (hm' : IsNearest x m') : m' = m := by
  have hm : IsNearest wide.toRat m := by
    rw [hvalue]
    exact m.isNearest_toRat
  refine (IsNearest.eq_of_ne_midpoint hfg hwide hm hm' fun rank _ => ?_).symm
  rw [hvalue]
  exact m.toRat_ne_midpoint rank

theorem toRat_lt_top (h : m.isInfinite = false) : m.toRat < f.ratOfRank f.top := by
  rw [isInfinite, beq_eq_false_iff_ne] at h
  exact f.ratOfRank_strictMono (lt_of_le_of_ne m.rank_le_top h)

theorem isInfinite_eq_false_of_lt (h : m.toRat < f.ratOfRank f.top) : m.isInfinite = false := by
  rw [toRat, f.ratOfRank_strictMono.lt_iff_lt] at h
  exact beq_eq_false_iff_ne.mpr h.ne

/-- Conversion of a finite value to a finer format is exact. -/
theorem exists_widening (hbits : 0 < g.fractionBits) (hfg : f.Refines g) (negative : Bool)
    (hfinite : m.isInfinite = false) :
    ∃ wide : Magnitude g, (BinaryFloat.signed negative m).convert = .signed negative wide ∧
      wide.toRat = m.toRat ∧ wide.isInfinite = false := by
  obtain ⟨exact', hexact⟩ := hfg.exists_toRat m
  let wide : Magnitude g := nearest (m.units * g.one) f.one
  have hnumber : ((m.units * g.one : Nat) : ℚ) / f.one / g.one = m.toRat := by
    rw [Nat.cast_mul, div_right_comm, mul_div_cancel_right₀ _ g.one_pos_rat.ne']
    rfl
  have hnear : IsNearest m.toRat wide := hnumber ▸ isNearest_nearest hbits f.one_pos
  have hself : IsNearest m.toRat exact' := hexact ▸ exact'.isNearest_toRat
  have hvalue : wide.toRat = m.toRat := by rw [hnear.unique hself, hexact]
  refine ⟨wide, ?_, hvalue, isInfinite_eq_false_of_lt ?_⟩
  · rw [BinaryFloat.convert, if_neg (by simp [hfinite])]
  · rw [hvalue]
    exact (toRat_lt_top hfinite).trans_le hfg.range

end ReversePolish.Binary.Magnitude
