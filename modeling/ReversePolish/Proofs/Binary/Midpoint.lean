import ReversePolish.Binary.Basic
import ReversePolish.Proofs.Binary.Closest

/-! Rounding in two steps. A finer format has the numbers midway between the values of a
coarser one among its own values, and rounding to it does not move a number across them.
So rounding first to the finer format changes the result only if it ends at a midpoint,
and then by one place. -/

namespace ReversePolish.Binary

theorem le_half_of_abs_le {a b x : ℚ} (hab : a < b) (h : |a - x| ≤ |b - x|) :
    x ≤ (a + b) / 2 := by
  rcases abs_cases (a - x) with ⟨ha, _⟩ | ⟨ha, _⟩ <;>
    rcases abs_cases (b - x) with ⟨hb, _⟩ | ⟨hb, _⟩ <;> linarith

theorem half_le_of_abs_le {a b x : ℚ} (hab : a < b) (h : |b - x| ≤ |a - x|) :
    (a + b) / 2 ≤ x := by
  rcases abs_cases (a - x) with ⟨ha, _⟩ | ⟨ha, _⟩ <;>
    rcases abs_cases (b - x) with ⟨hb, _⟩ | ⟨hb, _⟩ <;> linarith

namespace Format

section Midpoint

variable (f : Format) {rank : Nat}

/-- The number midway between the values of a rank and of the next one. -/
def midpoint (rank : Nat) : ℚ := (f.ratOfRank rank + f.ratOfRank (rank + 1)) / 2

theorem ratOfRank_lt_midpoint (rank : Nat) : f.ratOfRank rank < f.midpoint rank := by
  have hstep := f.ratOfRank_strictMono (Nat.lt_succ_self rank)
  rw [midpoint]
  linarith

theorem midpoint_lt_ratOfRank (rank : Nat) : f.midpoint rank < f.ratOfRank (rank + 1) := by
  have hstep := f.ratOfRank_strictMono (Nat.lt_succ_self rank)
  rw [midpoint]
  linarith

theorem midpoint_strictMono : StrictMono f.midpoint :=
  strictMono_nat_of_lt_succ fun rank =>
    (f.midpoint_lt_ratOfRank rank).trans (f.ratOfRank_lt_midpoint (rank + 1))

theorem midpoint_pos (rank : Nat) : 0 < f.midpoint rank :=
  (div_nonneg (Nat.cast_nonneg _) f.one_pos_rat.le).trans_lt (f.ratOfRank_lt_midpoint rank)

theorem midpoint_lt_top (hrank : rank < f.top) : f.midpoint rank < f.ratOfRank f.top :=
  (f.midpoint_lt_ratOfRank rank).trans_le (f.ratOfRank_strictMono.monotone hrank)

end Midpoint

/-- The finer format has more bits, reaches closer to zero, and is no less wide. -/
structure Refines (f g : Format) : Prop where
  bits : f.fractionBits < g.fractionBits
  unit : f.unitExponent < g.unitExponent
  range : f.ratOfRank f.top ≤ g.ratOfRank g.top

/-- Whatever fits a significand has a rank at any scale. -/
theorem exists_unitsOfRank (f : Format) {k : Nat} (hk : k ≤ 2 * f.binade) (h : Nat) :
    ∃ rank, f.unitsOfRank rank = k * 2 ^ h := by
  induction h generalizing k with
  | zero => exact ⟨_, f.unitsOfRank_add_mul hk (.inl rfl)⟩
  | succ h ih =>
    rcases Nat.lt_or_ge k f.binade with hlt | hge
    · obtain ⟨rank, hrank⟩ := ih (k := 2 * k) (by omega)
      exact ⟨rank, by rw [hrank, Nat.pow_succ]; ring⟩
    · exact ⟨_, f.unitsOfRank_add_mul hk (.inr hge)⟩

variable {f g : Format}

theorem two_mul_binade_le (h : f.fractionBits < g.fractionBits) : 2 * f.binade ≤ g.binade := by
  calc 2 * 2 ^ f.fractionBits = 2 ^ (f.fractionBits + 1) := by rw [Nat.pow_succ, Nat.mul_comm]
    _ ≤ 2 ^ g.fractionBits := Nat.pow_le_pow_right (by decide) h

/-- Powers of two times a significand, in halves of the coarser format's units, are values of
the finer format. -/
theorem Refines.exists_ratOfRank (hfg : f.Refines g) {k : Nat} (hk : k ≤ 2 * g.binade) (h : Nat) :
    ∃ rank, g.ratOfRank rank = k * 2 ^ h / (2 * f.one) := by
  obtain ⟨d, hd⟩ := Nat.exists_eq_add_of_lt hfg.unit
  obtain ⟨rank, hrank⟩ := g.exists_unitsOfRank hk (h + d)
  have hone : (f.one : ℚ) ≠ 0 := f.one_pos_rat.ne'
  have hscale : (g.one : ℚ) = f.one * 2 ^ d * 2 := by
    have : g.one = f.one * 2 ^ d * 2 := by
      change 2 ^ g.unitExponent = 2 ^ f.unitExponent * 2 ^ d * 2
      rw [hd, Nat.pow_succ, Nat.pow_add]
    exact_mod_cast this
  refine ⟨rank, ?_⟩
  rw [ratOfRank, hrank, hscale]
  push_cast
  field_simp
  ring

theorem Refines.exists_magnitude (hfg : f.Refines g) {rank : Nat} {x : ℚ}
    (hx : g.ratOfRank rank = x) (hle : x ≤ f.ratOfRank f.top) :
    ∃ m : Magnitude g, m.toRat = x := by
  have htop : rank ≤ g.top := by
    refine (g.ratOfRank_strictMono.le_iff_le).mp ?_
    rw [hx]
    exact hle.trans hfg.range
  exact ⟨⟨rank, htop⟩, hx⟩

theorem Refines.exists_midpoint (hfg : f.Refines g) {rank : Nat} (hrank : rank < f.top) :
    ∃ m : Magnitude g, m.toRat = f.midpoint rank := by
  obtain ⟨k, h, rfl, hk, hh⟩ := f.exists_significand rank
  have hbinade := two_mul_binade_le hfg.bits
  obtain ⟨wide, hwide⟩ := hfg.exists_ratOfRank (show 2 * k + 1 ≤ 2 * g.binade by omega) h
  have hnext : k + h * f.binade + 1 = k + 1 + h * f.binade := by omega
  have hmid : g.ratOfRank wide = f.midpoint (k + h * f.binade) := by
    have hone : (f.one : ℚ) ≠ 0 := f.one_pos_rat.ne'
    rw [hwide, midpoint, hnext, ratOfRank, ratOfRank, f.unitsOfRank_add_mul hk.le hh,
      f.unitsOfRank_add_mul hk (hh.imp_right Nat.le_succ_of_le)]
    push_cast
    field_simp
    ring
  exact hfg.exists_magnitude hmid (f.midpoint_lt_top hrank).le

/-- The values of the coarser format are among those of the finer one. -/
theorem Refines.exists_toRat (hfg : f.Refines g) (m : Magnitude f) :
    ∃ wide : Magnitude g, wide.toRat = m.toRat := by
  obtain ⟨k, h, hrank, hk, hh⟩ := f.exists_significand m.rank
  have hbinade := two_mul_binade_le hfg.bits
  obtain ⟨wide, hwide⟩ := hfg.exists_ratOfRank (show 2 * k ≤ 2 * g.binade by omega) h
  have hvalue : g.ratOfRank wide = m.toRat := by
    have hone : (f.one : ℚ) ≠ 0 := f.one_pos_rat.ne'
    rw [hwide, Magnitude.toRat, hrank, ratOfRank, f.unitsOfRank_add_mul hk.le hh]
    push_cast
    field_simp
  exact hfg.exists_magnitude hvalue (f.ratOfRank_strictMono.monotone m.rank_le_top)

section Single

theorem ratOfRank_of_unitsOfRank {rank n : Nat} (h : f.unitsOfRank rank = n * f.one) :
    f.ratOfRank rank = n := by
  rw [ratOfRank, h, Nat.cast_mul, mul_div_cancel_right₀ _ f.one_pos_rat.ne']

theorem single_ratOfRank_top : single.ratOfRank single.top = 2 ^ 128 := by
  rw [ratOfRank_of_unitsOfRank (n := 2 ^ 128) (by decide +kernel)]
  norm_num

theorem single_refines_double : single.Refines double where
  bits := by decide
  unit := by decide
  range := by
    have hdouble : (2 ^ 128 : Nat) ≤ double.ratOfRank double.top := by
      rw [ratOfRank, le_div_iff₀ double.one_pos_rat]
      exact_mod_cast (by decide +kernel :
        2 ^ 128 * double.one ≤ double.unitsOfRank double.top)
    rw [single_ratOfRank_top]
    exact_mod_cast hdouble

theorem single_midpoint_top : single.midpoint (single.top - 1) = 2 ^ 128 - 2 ^ 103 := by
  have hlast : single.ratOfRank (single.top - 1) = (2 ^ 128 - 2 ^ 104 : Nat) :=
    ratOfRank_of_unitsOfRank (by decide +kernel)
  have hnext : single.top - 1 + 1 = single.top := rfl
  rw [midpoint, hlast, hnext, single_ratOfRank_top]
  norm_num

end Single

end Format

namespace Magnitude

variable {f g : Format} {x : ℚ} {m m' guess : Magnitude f} {wide : Magnitude g} {rank : Nat}

theorem IsNearest.midpoint_le (h : IsNearest x m) (hrank : rank < m.rank) :
    f.midpoint rank ≤ x := by
  let low : Magnitude f := ⟨rank, hrank.le.trans m.rank_le_top⟩
  have hhigh : f.ratOfRank (rank + 1) ≤ m.toRat := f.ratOfRank_strictMono.monotone hrank
  calc f.midpoint rank ≤ (low.toRat + m.toRat) / 2 := by
        rw [Format.midpoint, show low.toRat = f.ratOfRank rank from rfl]
        linarith
    _ ≤ x := half_le_of_abs_le (toRat_lt_iff.mpr hrank) (h.le low)

theorem IsNearest.le_midpoint (h : IsNearest x m) (hrank : m.rank ≤ rank) (htop : rank < f.top) :
    x ≤ f.midpoint rank := by
  let high : Magnitude f := ⟨rank + 1, htop⟩
  have hlow : m.toRat ≤ f.ratOfRank rank := f.ratOfRank_strictMono.monotone hrank
  have hlt : m.toRat < high.toRat := toRat_lt_iff.mpr (Nat.lt_succ_of_le hrank)
  calc x ≤ (m.toRat + high.toRat) / 2 := le_half_of_abs_le hlt (h.le high)
    _ ≤ f.midpoint rank := by
        rw [Format.midpoint, show high.toRat = f.ratOfRank (rank + 1) from rfl]
        linarith

/-- From midway between the largest finite value and the next one on, infinity is nearest. -/
theorem IsNearest.eq_infinity_iff (hodd : Odd (f.top - 1)) (h : IsNearest x m) :
    m = infinity ↔ f.midpoint (f.top - 1) ≤ x := by
  have htop : f.top - 1 < f.top := by
    obtain ⟨k, hk⟩ := hodd
    omega
  constructor
  · rintro rfl
    exact h.midpoint_le htop
  · intro hx
    by_contra hne
    have hlt : m.rank < f.top := lt_of_le_of_ne m.rank_le_top fun heq => hne (ext heq)
    have hrank : m.rank = f.top - 1 := by
      by_contra hfar
      have hbelow := h.le_midpoint le_rfl hlt
      have hmono : f.midpoint m.rank < f.midpoint (f.top - 1) :=
        f.midpoint_strictMono (by omega)
      linarith
    have hmid : x = (m.toRat + (infinity : Magnitude f).toRat) / 2 := by
      rw [le_antisymm (h.le_midpoint hrank.le htop) hx, Format.midpoint,
        Nat.sub_add_cancel (Nat.one_le_of_lt htop), toRat, hrank]
      rfl
    have htie : |(infinity : Magnitude f).toRat - x| = |m.toRat - x| := by
      rw [hmid, abs_sub_comm m.toRat]
      congr 1
      ring
    have heven := h.even infinity (Ne.symm hne) htie
    rw [hrank] at heven
    exact Nat.not_even_iff_odd.mpr hodd heven

/-- Rounding does not move a number across a value. -/
theorem IsNearest.le_toRat (h : IsNearest x m) (hle : m'.toRat ≤ x) : m'.toRat ≤ m.toRat := by
  by_contra hlt
  have := le_half_of_abs_le (not_le.mp hlt) (h.le m')
  linarith

theorem IsNearest.toRat_le (h : IsNearest x m) (hle : x ≤ m'.toRat) : m.toRat ≤ m'.toRat := by
  by_contra hlt
  have := half_le_of_abs_le (not_le.mp hlt) (h.le m')
  linarith

/-- Between the result of two steps and that of one, the first step ended at each midpoint. -/
theorem IsNearest.toRat_eq_midpoint (hfg : f.Refines g) (hwide : IsNearest x wide)
    (hguess : IsNearest wide.toRat guess) (hm : IsNearest x m)
    (hrank : guess.rank ≤ rank ∧ rank < m.rank ∨ m.rank ≤ rank ∧ rank < guess.rank) :
    wide.toRat = f.midpoint rank := by
  rcases hrank with ⟨hlow, hhigh⟩ | ⟨hlow, hhigh⟩
  · have htop := hhigh.trans_le m.rank_le_top
    obtain ⟨mid, hmid⟩ := hfg.exists_midpoint htop
    refine le_antisymm (hguess.le_midpoint hlow htop) ?_
    rw [← hmid]
    exact hwide.le_toRat (hmid ▸ hm.midpoint_le hhigh)
  · have htop := hhigh.trans_le guess.rank_le_top
    obtain ⟨mid, hmid⟩ := hfg.exists_midpoint htop
    refine le_antisymm ?_ (hguess.midpoint_le hhigh)
    rw [← hmid]
    exact hwide.toRat_le (hmid ▸ hm.le_midpoint hlow htop)

/-- Rounding in two steps ends at most one place away. -/
theorem IsNearest.rank_le_succ (hfg : f.Refines g) (hwide : IsNearest x wide)
    (hguess : IsNearest wide.toRat guess) (hm : IsNearest x m) :
    m.rank ≤ guess.rank + 1 ∧ guess.rank ≤ m.rank + 1 := by
  have hmid : ∀ rank, guess.rank ≤ rank ∧ rank < m.rank ∨ m.rank ≤ rank ∧ rank < guess.rank →
      wide.toRat = f.midpoint rank := fun _ => IsNearest.toRat_eq_midpoint hfg hwide hguess hm
  constructor
  · by_contra hfar
    have heq := (hmid guess.rank (.inl (by omega))).symm.trans
      (hmid (guess.rank + 1) (.inl (by omega)))
    exact absurd (f.midpoint_strictMono.injective heq) (Nat.succ_ne_self _).symm
  · by_contra hfar
    have heq := (hmid m.rank (.inr (by omega))).symm.trans (hmid (m.rank + 1) (.inr (by omega)))
    exact absurd (f.midpoint_strictMono.injective heq) (Nat.succ_ne_self _).symm

/-- Two steps that end at another value than one do end at a value next to it. -/
theorem IsNearest.rank_succ_of_ne (hfg : f.Refines g) (hwide : IsNearest x wide)
    (hguess : IsNearest wide.toRat guess) (hm : IsNearest x m) (hne : m ≠ guess) :
    m.rank = guess.rank + 1 ∨ guess.rank = m.rank + 1 := by
  obtain ⟨hup, hdown⟩ := hwide.rank_le_succ hfg hguess hm
  have hrank : m.rank ≠ guess.rank := fun heq => hne (ext heq)
  omega

/-- The first step then ended midway between the two. -/
theorem IsNearest.toRat_eq_half_of_ne (hfg : f.Refines g) (hwide : IsNearest x wide)
    (hguess : IsNearest wide.toRat guess) (hm : IsNearest x m) (hne : m ≠ guess) :
    wide.toRat = (guess.toRat + m.toRat) / 2 := by
  rcases hwide.rank_succ_of_ne hfg hguess hm hne with hrank | hrank
  · rw [IsNearest.toRat_eq_midpoint hfg hwide hguess hm (.inl ⟨le_rfl, by omega⟩),
      Format.midpoint, ← hrank]
    rfl
  · rw [IsNearest.toRat_eq_midpoint hfg hwide hguess hm (.inr ⟨le_rfl, by omega⟩),
      Format.midpoint, ← hrank, add_comm]
    rfl

theorem IsNearest.eq_of_ne_midpoint (hfg : f.Refines g) (hwide : IsNearest x wide)
    (hguess : IsNearest wide.toRat guess) (hm : IsNearest x m)
    (hmid : ∀ rank < f.top, wide.toRat ≠ f.midpoint rank) : guess = m := by
  have hle := m.rank_le_top
  have hle' := guess.rank_le_top
  refine ext (Nat.le_antisymm ?_ ?_) <;> by_contra hlt
  · exact hmid m.rank (by omega)
      (IsNearest.toRat_eq_midpoint hfg hwide hguess hm (.inr (by omega)))
  · exact hmid guess.rank (by omega)
      (IsNearest.toRat_eq_midpoint hfg hwide hguess hm (.inl (by omega)))

/-- Conversion to a narrower format finds the nearest magnitude of the value. -/
theorem exists_convert (hbits : 0 < f.fractionBits) (hfg : f.Refines g) (negative : Bool)
    (wide : Magnitude g) :
    ∃ guess : Magnitude f, (BinaryFloat.signed negative wide).convert = .signed negative guess ∧
      IsNearest wide.toRat guess := by
  by_cases hinf : wide.isInfinite
  · refine ⟨.infinity, by rw [BinaryFloat.convert, if_pos hinf]; rfl, isNearest_infinity ?_⟩
    rw [toRat, eq_of_beq hinf]
    exact hfg.range
  · refine ⟨_, by rw [BinaryFloat.convert, if_neg hinf], ?_⟩
    have hvalue : ((wide.units * f.one : Nat) : ℚ) / g.one / f.one = wide.toRat := by
      rw [Nat.cast_mul, div_right_comm, mul_div_cancel_right₀ _ f.one_pos_rat.ne']
      rfl
    rw [← hvalue]
    exact isNearest_nearest hbits g.one_pos

end Magnitude

end ReversePolish.Binary
