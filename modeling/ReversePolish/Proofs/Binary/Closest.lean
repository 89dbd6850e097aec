import ReversePolish.Proofs.Binary.Rounding
import Mathlib.Algebra.Order.Field.Rat
import Mathlib.Algebra.Ring.Parity
import Mathlib.Tactic.FieldSimp
import Mathlib.Tactic.Linarith
import Mathlib.Tactic.Positivity
import Mathlib.Tactic.Ring

/-! Rounding to the nearest is correct rounding. No magnitude of the format is closer to
the rounded number than the one that is found, and where another one is as close the rank
of the one found is even; there is only one such magnitude. Infinity takes part with the
value that would follow the largest finite one, so that overflow is no case of its own. -/

namespace ReversePolish.Binary

namespace Format

variable (f : Format)

/-- A rank is a significand below twice the binade, shifted by whole binades; one that is
shifted is normal. -/
theorem exists_significand (rank : Nat) :
    ∃ k h, rank = k + h * f.binade ∧ k < 2 * f.binade ∧ (h = 0 ∨ f.binade ≤ k) := by
  have hmod := Nat.mod_lt rank f.binade_pos
  have hrank := Nat.div_add_mod rank f.binade
  rcases hfield : rank / f.binade with _ | e
  · rw [hfield, Nat.mul_zero, Nat.zero_add] at hrank
    exact ⟨rank, 0, by omega, by omega, .inl rfl⟩
  · rw [hfield, Nat.mul_add, Nat.mul_one, Nat.mul_comm] at hrank
    exact ⟨f.binade + rank % f.binade, e, by omega, by omega, .inr (by omega)⟩

/-- Each shift by a binade doubles a normal significand, up to the first of the next binade. -/
theorem unitsOfRank_add_mul {k h : Nat} (hk : k ≤ 2 * f.binade) (hh : h = 0 ∨ f.binade ≤ k) :
    f.unitsOfRank (k + h * f.binade) = k * 2 ^ h := by
  have hpos := f.binade_pos
  rcases Nat.lt_or_ge k f.binade with hlt | hge
  · obtain rfl : h = 0 := hh.resolve_right (by omega)
    simp [unitsOfRank, Nat.div_eq_of_lt hlt]
  · obtain ⟨r, rfl⟩ := Nat.exists_eq_add_of_le hge
    have hfield : (f.binade + r + h * f.binade) / f.binade = 1 + h + r / f.binade := by
      rw [show f.binade + r + h * f.binade = r + (1 + h) * f.binade by ring,
        Nat.add_mul_div_right _ _ hpos, Nat.add_comm]
    have hmod : (f.binade + r + h * f.binade) % f.binade = r % f.binade := by
      rw [show f.binade + r + h * f.binade = r + (1 + h) * f.binade by ring,
        Nat.add_mul_mod_self_right]
    rcases Nat.lt_or_ge r f.binade with hr | hr
    · have hunits : f.unitsOfRank (f.binade + r + h * f.binade) = (f.binade + r) * 2 ^ h := by
        rw [unitsOfRank, hfield, hmod, Nat.div_eq_of_lt hr, Nat.mod_eq_of_lt hr, Nat.add_zero,
          if_neg (by omega), Nat.add_sub_cancel_left]
        rfl
      exact hunits
    · -- The significand has reached twice the binade, and the next field begins.
      obtain rfl : r = f.binade := by omega
      rw [unitsOfRank, hfield, hmod, Nat.div_self hpos, Nat.mod_self, if_neg (by omega),
        show 1 + h + 1 - 1 = h + 1 by omega, show Nat.pow 2 (h + 1) = 2 ^ h * 2 from rfl]
      ring

theorem unitsOfRank_strictMono : StrictMono f.unitsOfRank := by
  refine strictMono_nat_of_lt_succ fun rank => ?_
  obtain ⟨k, h, rfl, hk, hh⟩ := f.exists_significand rank
  have hnext : k + h * f.binade + 1 = k + 1 + h * f.binade := by omega
  rw [hnext, f.unitsOfRank_add_mul (by omega) hh,
    f.unitsOfRank_add_mul (by omega) (hh.imp_right Nat.le_succ_of_le)]
  exact Nat.mul_lt_mul_of_pos_right (Nat.lt_succ_self k) (Nat.two_pow_pos h)

/-- The number that a rank stands for. -/
def ratOfRank (rank : Nat) : ℚ := f.unitsOfRank rank / f.one

theorem one_pos_rat : (0 : ℚ) < f.one := Nat.cast_pos.mpr f.one_pos

theorem ratOfRank_strictMono : StrictMono f.ratOfRank := fun _ _ h =>
  div_lt_div_of_pos_right (Nat.cast_lt.mpr (f.unitsOfRank_strictMono h)) f.one_pos_rat

end Format

namespace Magnitude

variable {f : Format} {x : ℚ} {m m' : Magnitude f}

def toRat (m : Magnitude f) : ℚ := f.ratOfRank m.rank

/-- No magnitude is closer to the number, and one that shares its place has an even rank. -/
structure IsNearest (x : ℚ) (m : Magnitude f) : Prop where
  le (m' : Magnitude f) : |m.toRat - x| ≤ |m'.toRat - x|
  even (m' : Magnitude f) (hne : m' ≠ m) (htie : |m'.toRat - x| = |m.toRat - x|) : Even m.rank

theorem toRat_lt_iff : m.toRat < m'.toRat ↔ m.rank < m'.rank := f.ratOfRank_strictMono.lt_iff_lt

theorem toRat_nonneg (m : Magnitude f) : 0 ≤ m.toRat :=
  div_nonneg (Nat.cast_nonneg _) f.one_pos_rat.le

theorem toRat_zero : (zero : Magnitude f).toRat = 0 := by
  rw [toRat, Format.ratOfRank]
  simp [zero, Format.unitsOfRank]

theorem toRat_pos_iff : 0 < m.toRat ↔ m.isZero = false := by
  rw [← toRat_zero, toRat_lt_iff, isZero, beq_eq_false_iff_ne]
  exact Nat.pos_iff_ne_zero

theorem toRat_lt_pow_iff (n : Nat) : m.toRat < 2 ^ n ↔ m.units < 2 ^ n * f.one := by
  rw [toRat, Format.ratOfRank, div_lt_iff₀ f.one_pos_rat]
  exact_mod_cast Iff.rfl

/-- Two magnitudes of even rank have another one between them, so only one is nearest. -/
theorem IsNearest.unique (h : IsNearest x m) (h' : IsNearest x m') : m = m' := by
  have hlt : ∀ {a b : Magnitude f}, IsNearest x a → IsNearest x b → ¬a.rank < b.rank := by
    intro a b ha hb hlt
    have htie : |a.toRat - x| = |b.toRat - x| := le_antisymm (ha.le b) (hb.le a)
    have hne : a ≠ b := fun heq => hlt.ne (congrArg rank heq)
    obtain ⟨p, hp⟩ := ha.even b hne.symm htie.symm
    obtain ⟨q, hq⟩ := hb.even a hne htie
    let between : Magnitude f := ⟨a.rank + 1, hlt.trans_le b.rank_le_top⟩
    have hleft : a.toRat < between.toRat := toRat_lt_iff.mpr (Nat.lt_succ_self _)
    have hright : between.toRat < b.toRat := toRat_lt_iff.mpr (show a.rank + 1 < b.rank by omega)
    have hcloser := ha.le between
    rcases abs_cases (a.toRat - x) with ⟨h1, h2⟩ | ⟨h1, h2⟩ <;>
      rcases abs_cases (b.toRat - x) with ⟨h3, h4⟩ | ⟨h3, h4⟩ <;>
        rcases abs_cases (between.toRat - x) with ⟨h5, h6⟩ | ⟨h5, h6⟩ <;> linarith
  exact ext (Nat.le_antisymm (Nat.le_of_not_lt (hlt h' h)) (Nat.le_of_not_lt (hlt h h')))

theorem isNearest_of_ne (h : ∀ m' : Magnitude f, m' ≠ m → |m.toRat - x| < |m'.toRat - x| ∨
    |m.toRat - x| = |m'.toRat - x| ∧ Even m.rank) : IsNearest x m where
  le m' := by
    rcases eq_or_ne m' m with rfl | hne
    · exact le_rfl
    · exact (h m' hne).elim le_of_lt fun htie => htie.1.le
  even m' hne htie := ((h m' hne).resolve_left htie.not_gt).2

/-- Beside a number between two ranks, only the other one of the two can be as close. -/
theorem isNearest_of_between {low other : Nat} (hlow : f.ratOfRank low ≤ x)
    (hhigh : x < f.ratOfRank (low + 1))
    (hpair : m.rank = low ∧ other = low + 1 ∨ m.rank = low + 1 ∧ other = low)
    (h : |m.toRat - x| < |f.ratOfRank other - x| ∨
      |m.toRat - x| = |f.ratOfRank other - x| ∧ Even m.rank) : IsNearest x m := by
  have hmono := f.ratOfRank_strictMono
  have hfarther : |m.toRat - x| ≤ |f.ratOfRank other - x| := h.elim le_of_lt fun htie => htie.1.le
  refine isNearest_of_ne fun m' hne => ?_
  by_cases hother : m'.rank = other
  · rwa [show m'.toRat = f.ratOfRank other from congrArg _ hother]
  · have hrank : m'.rank ≠ m.rank := fun heq => hne (ext heq)
    left
    rcases Nat.lt_or_ge m'.rank low with hlt | hge
    · have hbelow : m'.toRat < f.ratOfRank low := hmono hlt
      have hdist : |f.ratOfRank low - x| = x - f.ratOfRank low := by
        rw [abs_sub_comm, abs_of_nonneg (by linarith)]
      calc |m.toRat - x| ≤ |f.ratOfRank low - x| := by
            rcases hpair with ⟨hm, -⟩ | ⟨-, rfl⟩
            · rw [toRat, hm]
            · exact hfarther
        _ < x - m'.toRat := by linarith
        _ ≤ |m'.toRat - x| := by
            rw [abs_sub_comm]
            exact le_abs_self _
    · have habove : f.ratOfRank (low + 1) < m'.toRat := hmono (show low + 1 < m'.rank by omega)
      have hdist : |f.ratOfRank (low + 1) - x| = f.ratOfRank (low + 1) - x :=
        abs_of_nonneg (by linarith)
      calc |m.toRat - x| ≤ |f.ratOfRank (low + 1) - x| := by
            rcases hpair with ⟨-, rfl⟩ | ⟨hm, -⟩
            · exact hfarther
            · rw [toRat, hm]
        _ < m'.toRat - x := by linarith
        _ ≤ |m'.toRat - x| := le_abs_self _

theorem isNearest_infinity (h : f.ratOfRank f.top ≤ x) : IsNearest x (infinity : Magnitude f) := by
  refine isNearest_of_ne fun m' hne => .inl ?_
  have hlt : m'.rank < f.top := lt_of_le_of_ne m'.rank_le_top fun heq => hne (ext heq)
  have hbelow : m'.toRat < f.ratOfRank f.top := f.ratOfRank_strictMono hlt
  have hinf : (infinity : Magnitude f).toRat = f.ratOfRank f.top := rfl
  rw [hinf, abs_sub_comm, abs_sub_comm m'.toRat, abs_of_nonneg (by linarith),
    abs_of_nonneg (by linarith)]
  linarith

section Quotient

variable {num den : Nat}

/-- The whole part of a quotient that is scaled down is a significand. -/
theorem scaled_bounds (f : Format) (num den : Nat) :
    num / (den * 2 ^ halvings f num den) < 2 * f.binade ∧
      (halvings f num den = 0 ∨ f.binade ≤ num / (den * 2 ^ halvings f num den)) := by
  constructor
  · rw [← Nat.div_div_eq_div_mul, Nat.div_lt_iff_lt_mul (Nat.two_pow_pos _)]
    calc num / den < 2 ^ ((num / den).log2 + 1) := Nat.lt_log2_self
      _ ≤ 2 ^ (f.fractionBits + 1 + halvings f num den) :=
        Nat.pow_le_pow_right (by decide) (by rw [halvings]; omega)
      _ = 2 * f.binade * 2 ^ halvings f num den := by
        rw [Nat.pow_add, Nat.pow_succ, Nat.mul_comm _ 2]
        rfl
  · refine or_iff_not_imp_left.mpr fun hne => binade_le_div ?_
    have hlog : f.fractionBits ≤ (num / den).log2 := by rw [halvings] at hne; omega
    have hpos : num / den ≠ 0 := by
      intro hzero
      rw [halvings, hzero, Nat.log2_zero, Nat.zero_sub] at hne
      exact hne rfl
    exact (Nat.le_log2 hpos).mp hlog

theorem even_add_mul_binade (hbits : 0 < f.fractionBits) (k h : Nat) :
    Even (k + h * f.binade) ↔ Even k := by
  have hbinade : Even f.binade := by
    rw [show f.binade = 2 ^ f.fractionBits from rfl, Nat.even_pow]
    exact ⟨even_two, hbits.ne'⟩
  rw [Nat.even_add]
  exact iff_true_right (hbinade.mul_left h)

/-- How far a quotient is from the two ranks that it stands between. -/
theorem distances (hden : 0 < den) {h : Nat} (hlt : num / (den * 2 ^ h) < 2 * f.binade)
    (hnormal : h = 0 ∨ f.binade ≤ num / (den * 2 ^ h)) :
    let low := num / (den * 2 ^ h) + h * f.binade
    let rest := num % (den * 2 ^ h)
    (num / den / f.one - f.ratOfRank low : ℚ) = rest / (den * f.one) ∧
      (f.ratOfRank (low + 1) - num / den / f.one : ℚ) =
        ((den * 2 ^ h : Nat) - rest) / (den * f.one) := by
  intro low rest
  have hone : (f.one : ℚ) ≠ 0 := f.one_pos_rat.ne'
  have hden' : (den : ℚ) ≠ 0 := Nat.cast_ne_zero.mpr hden.ne'
  have hnext : low + 1 = num / (den * 2 ^ h) + 1 + h * f.binade := by omega
  have hsplit : (num : ℚ) = den * 2 ^ h * (num / (den * 2 ^ h) : Nat) + rest := by
    exact_mod_cast (Nat.div_add_mod num (den * 2 ^ h)).symm
  have hlow : f.unitsOfRank low = num / (den * 2 ^ h) * 2 ^ h :=
    f.unitsOfRank_add_mul hlt.le hnormal
  have hhigh : f.unitsOfRank (low + 1) = (num / (den * 2 ^ h) + 1) * 2 ^ h := by
    rw [hnext]
    exact f.unitsOfRank_add_mul hlt (hnormal.imp_right Nat.le_succ_of_le)
  generalize num / (den * 2 ^ h) = k at hsplit hlow hhigh
  constructor
  · rw [Format.ratOfRank, hlow, hsplit]
    push_cast
    field_simp
    ring
  · rw [Format.ratOfRank, hhigh, hsplit]
    push_cast
    field_simp
    ring

/-- Between two ranks the closer one is nearest, and midway the even one. -/
theorem isNearest_of_distances {low rest scaled : Nat} {unit : ℚ} (hunit : 0 < unit)
    (hrest : rest < scaled) (hbelow : x - f.ratOfRank low = rest / unit)
    (habove : f.ratOfRank (low + 1) - x = (scaled - rest) / unit)
    (hm : m.rank = if 2 * rest < scaled ∨ 2 * rest = scaled ∧ Even low then low else low + 1) :
    IsNearest x m := by
  have hleft : (0 : ℚ) < scaled - rest := sub_pos.mpr (Nat.cast_lt.mpr hrest)
  have hlow : f.ratOfRank low ≤ x := sub_nonneg.mp (hbelow ▸ by positivity)
  have hhigh : x < f.ratOfRank (low + 1) := sub_pos.mp (habove ▸ div_pos hleft hunit)
  have hlowdist : |f.ratOfRank low - x| = rest / unit := by
    rw [abs_sub_comm, hbelow, abs_of_nonneg (by positivity)]
  have hhighdist : |f.ratOfRank (low + 1) - x| = (scaled - rest) / unit := by
    rw [habove, abs_of_pos (div_pos hleft hunit)]
  split_ifs at hm with hdown
  · refine isNearest_of_between hlow hhigh (.inl ⟨hm, rfl⟩) ?_
    rw [toRat, hm, hlowdist, hhighdist]
    rcases hdown with hlt | ⟨htie, heven⟩
    · have : (2 * rest : ℚ) < scaled := by exact_mod_cast hlt
      exact .inl (div_lt_div_of_pos_right (by linarith) hunit)
    · have : (2 * rest : ℚ) = scaled := by exact_mod_cast htie
      exact .inr ⟨by rw [← this]; ring, heven⟩
  · refine isNearest_of_between hlow hhigh (.inr ⟨hm, rfl⟩) ?_
    rw [toRat, hm, hlowdist, hhighdist]
    rcases Nat.lt_or_ge scaled (2 * rest) with hlt | hge
    · have : (scaled : ℚ) < 2 * rest := by exact_mod_cast hlt
      exact .inl (div_lt_div_of_pos_right (by linarith) hunit)
    · have htie : 2 * rest = scaled := by omega
      have : (2 * rest : ℚ) = scaled := by exact_mod_cast htie
      have hodd : ¬Even low := fun heven => hdown (.inr ⟨htie, heven⟩)
      exact .inr ⟨by rw [← this]; ring, Nat.even_add_one.mpr hodd⟩

/-- Rounding a quotient of units finds the nearest magnitude of the number. -/
theorem isNearest_nearest (hbits : 0 < f.fractionBits) (hden : 0 < den) :
    IsNearest (num / den / f.one) (nearest num den : Magnitude f) := by
  obtain ⟨hlt, hnormal⟩ := scaled_bounds f num den
  obtain ⟨hbelow, habove⟩ := distances hden hlt hnormal
  have hunit : (0 : ℚ) < den * f.one := mul_pos (Nat.cast_pos.mpr hden) f.one_pos_rat
  have hrest := Nat.mod_lt num (Nat.mul_pos hden (Nat.two_pow_pos (halvings f num den)))
  rw [nearest_eq]
  generalize halvings f num den = h at hbelow habove hrest
  rcases Nat.lt_or_ge (num / (den * 2 ^ h) + h * f.binade) f.top with htop | htop
  · refine isNearest_of_distances hunit hrest hbelow habove ?_
    have hrank : ∀ r ≤ num / (den * 2 ^ h) + h * f.binade + 1,
        (ofRank r : Magnitude f).rank = r := fun r hr => Nat.min_eq_left (hr.trans htop)
    simp only [roundHalfEven, even_add_mul_binade hbits, Nat.even_iff]
    split_ifs
    · exact hrank _ (Nat.le_succ _)
    · rw [hrank _ (by omega)]
      omega
  · have hinf : (ofRank (roundHalfEven num (den * 2 ^ h) + h * f.binade) : Magnitude f) =
        infinity := by
      refine ext (Nat.min_eq_right (htop.trans ?_))
      exact Nat.add_le_add_right (div_le_roundHalfEven ..) _
    have hlow := sub_nonneg.mp (hbelow ▸ by positivity :
      (0 : ℚ) ≤ num / den / f.one - f.ratOfRank (num / (den * 2 ^ h) + h * f.binade))
    rw [hinf]
    exact isNearest_infinity ((f.ratOfRank_strictMono.monotone htop).trans hlow)

theorem exists_isNearest (hbits : 0 < f.fractionBits) (hx : 0 ≤ x) :
    ∃ m : Magnitude f, IsNearest x m := by
  have hnum : (x.num.natAbs : ℚ) = x.num := by
    rw [Nat.cast_natAbs, abs_of_nonneg (Rat.num_nonneg.mpr hx)]
  have hvalue : ((x.num.natAbs * f.one : Nat) : ℚ) / x.den / f.one = x := by
    rw [Nat.cast_mul, div_right_comm, mul_div_cancel_right₀ _ f.one_pos_rat.ne', hnum,
      Rat.num_div_den]
  have hnear : IsNearest (((x.num.natAbs * f.one : Nat) : ℚ) / x.den / f.one) (nearest _ _) :=
    isNearest_nearest hbits x.den_pos
  rw [hvalue] at hnear
  exact ⟨_, hnear⟩

end Quotient

end Magnitude

end ReversePolish.Binary
