import ReversePolish.Decimal.Correction
import ReversePolish.Proofs.Binary.Arithmetic
import Mathlib.Data.Prod.Lex

/-! Values compared by how remote they are from a number: by their distance, and at the same
distance by their last bits. Infinity stands where the next finite value would. No value of the
sign of the number is as little remote as the nearest one: where another is as close, the nearest
has an even rank, and of two of even rank neither would be nearest. Beside zero there is a value
of the other sign, which is more remote than zero. -/

namespace ReversePolish

open Binary

theorem Binary.withSign_abs (x : ℚ) : withSign (x < 0) |x| = x := by
  rcases lt_or_ge x 0 with hneg | hnonneg
  · rw [withSign, if_pos (decide_eq_true hneg), abs_of_neg hneg, neg_neg]
  · rw [withSign, if_neg (by simpa using hnonneg), abs_of_nonneg hnonneg]

namespace BinaryFloat

variable {f : Format} {x r : ℚ} {negative : Bool} {m n guess : Magnitude f}

section Nearest

/-- The number that a value stands for, infinity as the one after the largest finite value. -/
def toRat (v : BinaryFloat f) : ℚ := v.exactUnits / f.one

theorem toRat_signed (negative : Bool) (m : Magnitude f) :
    (signed negative m).toRat = withSign negative m.toRat :=
  Magnitude.signedUnits_div_one negative m

theorem toRat_of_toRat? {v : BinaryFloat f} (h : v.toRat? = some x) : v.toRat = x := by
  obtain ⟨negative, m, rfl, -, rfl⟩ := exists_magnitude_of_toRat? h
  exact toRat_signed negative m

theorem exists_abs_toRat (v : BinaryFloat f) : ∃ m : Magnitude f, |v.toRat| = m.toRat := by
  cases v with
  | nan => exact ⟨.zero, by rw [Magnitude.toRat_zero]; simp [toRat, exactUnits]⟩
  | signed negative m =>
    exact ⟨m, by rw [toRat_signed, abs_withSign, abs_of_nonneg m.toRat_nonneg]⟩

/-- The value with the sign of the number and the magnitude nearest to it, midway the even one. -/
def IsNearest (x : ℚ) (v : BinaryFloat f) : Prop :=
  ∃ m, v = signed (x < 0) m ∧ m.IsNearest |x|

theorem IsNearest.unique {u v : BinaryFloat f} (hu : u.IsNearest x) (hv : v.IsNearest x) :
    u = v := by
  obtain ⟨m, rfl, hm⟩ := hu
  obtain ⟨n, rfl, hn⟩ := hv
  rw [hm.unique hn]

end Nearest

section Remoteness

/-- The distance from the number, and between equal distances the last bit. -/
def remoteness (x : ℚ) (v : BinaryFloat f) : ℚ ×ₗ ℕ := toLex (|v.toRat - x|, v.toBits % 2)

theorem toBits_mod_two (hbits : 0 < f.fractionBits) (negative : Bool) (m : Magnitude f) :
    (signed negative m).toBits % 2 = m.rank % 2 := by
  have hweight : f.signWeight = (f.infinityField + 1) * f.binade := by
    rw [Format.signWeight, Format.top, Nat.add_mul, Nat.one_mul]
  have heven : Even (m.rank + (f.infinityField + 1) * f.binade) ↔ Even m.rank :=
    Magnitude.even_add_mul_binade hbits _ _
  rw [← hweight, Nat.even_iff, Nat.even_iff] at heven
  cases negative with
  | false => rw [toBits, if_neg Bool.false_ne_true, Nat.zero_add]
  | true =>
    rw [toBits, if_pos rfl, Nat.add_comm]
    omega

/-- Nothing of the same sign is as little remote as the nearest value. -/
theorem remoteness_lt_of_ne (hbits : 0 < f.fractionBits) (hm : m.IsNearest r) (hne : n ≠ m)
    (negative : Bool) : (signed negative m).remoteness (withSign negative r) <
      (signed negative n).remoteness (withSign negative r) := by
  rw [remoteness, remoteness, Prod.Lex.toLex_lt_toLex', toRat_signed, toRat_signed, withSign_sub,
    withSign_sub, toBits_mod_two hbits, toBits_mod_two hbits]
  refine ⟨hm.le n, fun htie => ?_⟩
  -- At the same distance the other rank is odd, or it would be nearest as well.
  have heven := hm.even n hne htie.symm
  have hodd : ¬Even n.rank := fun hn => hne
    (Magnitude.IsNearest.unique ⟨fun m' => htie.symm.trans_le (hm.le m'), fun _ _ _ => hn⟩ hm)
  rw [Nat.even_iff] at heven hodd
  dsimp only
  omega

/-- A value of the other sign is beyond zero, and so farther than the nearest value. -/
theorem remoteness_lt_of_opposite (hm : m.IsNearest r) (hr : 0 ≤ r) (hn : n.isZero = false)
    (negative : Bool) : (signed negative m).remoteness (withSign negative r) <
      (signed (!negative) n).remoteness (withSign negative r) := by
  have hzero := hm.le .zero
  have hpos := Magnitude.toRat_pos_iff.mpr hn
  rw [Magnitude.abs_toRat_zero_sub hr] at hzero
  rw [remoteness, remoteness, Prod.Lex.toLex_lt_toLex, toRat_signed, toRat_signed, withSign_sub,
    withSign_not_sub negative n.toRat_nonneg hr]
  exact .inl (by dsimp only; linarith)

end Remoteness

section Neighbours

theorem beside_away (negative : Bool) (m : Magnitude f) :
    (signed negative m).beside negative = signed negative (.ofRank (m.rank + 1)) := by
  rw [beside, if_pos (beq_self_eq_true _)]

theorem beside_back (negative : Bool) (h : m.isZero = false) :
    (signed negative m).beside (!negative) = signed negative (.ofRank (m.rank - 1)) := by
  rw [beside, if_neg (by simp), if_neg (by simp [h])]

theorem beside_zero (negative : Bool) (h : m.isZero) :
    (signed negative m).beside (!negative) = signed (!negative) (.ofRank 1) := by
  rw [beside, if_neg (by simp), if_pos h]

theorem mem_neighbours_iff {v guess : BinaryFloat f} (negative : Bool) :
    v ∈ guess.neighbours ↔
      v = guess ∨ v = guess.beside negative ∨ v = guess.beside (!negative) := by
  cases negative
  · simp [neighbours, or_comm]
  · simp [neighbours]

theorem mem_neighbours (hup : m.rank ≤ guess.rank + 1) (hdown : guess.rank ≤ m.rank + 1) :
    signed negative m ∈ (signed negative guess).neighbours := by
  have hofRank : ∀ rank, m.rank = rank → m = .ofRank rank := fun _ h => by rw [← h, m.ofRank_rank]
  refine (mem_neighbours_iff negative).mpr ?_
  rcases Nat.lt_trichotomy m.rank guess.rank with hlt | heq | hgt
  · have hzero : guess.isZero = false := beq_eq_false_iff_ne.mpr (by omega)
    rw [beside_back negative hzero, ← hofRank _ (by omega)]
    exact .inr (.inr rfl)
  · exact .inl (by rw [Magnitude.ext heq])
  · rw [beside_away, ← hofRank _ (by omega)]
    exact .inr (.inl rfl)

/-- Only beside zero is there a value of the other sign, and it is not zero. -/
theorem eq_signed_of_mem_neighbours (htop : 0 < f.top) {v : BinaryFloat f}
    (h : v ∈ (signed negative guess).neighbours) :
    (∃ n, v = signed negative n) ∨ ∃ n, v = signed (!negative) n ∧ n.isZero = false := by
  rcases (mem_neighbours_iff negative).mp h with rfl | rfl | rfl
  · exact .inl ⟨_, rfl⟩
  · exact .inl ⟨_, beside_away ..⟩
  · cases hzero : guess.isZero with
    | false => exact .inl ⟨_, beside_back negative hzero⟩
    | true =>
      refine .inr ⟨.ofRank 1, beside_zero negative hzero, beq_eq_false_iff_ne.mpr ?_⟩
      rw [Magnitude.rank_ofRank]
      omega

/-- Beside a value of its sign, nothing is as little remote as the nearest value. -/
theorem remoteness_lt_of_mem_neighbours (hbits : 0 < f.fractionBits) (htop : 0 < f.top)
    (hm : m.IsNearest r) (hr : 0 ≤ r) {v : BinaryFloat f}
    (hv : v ∈ (signed negative guess).neighbours) (hne : v ≠ signed negative m) :
    (signed negative m).remoteness (withSign negative r) < v.remoteness (withSign negative r) := by
  rcases eq_signed_of_mem_neighbours htop hv with ⟨n, rfl⟩ | ⟨n, rfl, hn⟩
  · exact remoteness_lt_of_ne hbits hm (fun heq => hne (by rw [heq])) negative
  · exact remoteness_lt_of_opposite hm hr hn negative

end Neighbours

section Adjacent

/-- Different numbers that no value of the format stands between. -/
structure Adjacent (u v : BinaryFloat f) : Prop where
  ne : u.toRat ≠ v.toRat
  between (w : BinaryFloat f) : w.toRat ∉ Set.uIoo u.toRat v.toRat

theorem Adjacent.symm {u v : BinaryFloat f} (h : u.Adjacent v) : v.Adjacent u where
  ne := h.ne.symm
  between w := by
    rw [Set.uIoo_comm]
    exact h.between w

theorem abs_mem_Ioo_of_mem_uIoo {a b c : ℚ} (ha : 0 ≤ a) (hab : a < b)
    (h : c ∈ Set.uIoo (withSign negative a) (withSign negative b)) : |c| ∈ Set.Ioo a b := by
  cases negative with
  | false =>
    rw [show withSign false a = a from rfl, show withSign false b = b from rfl,
      Set.uIoo_of_lt hab] at h
    rwa [abs_of_pos (ha.trans_lt h.1)]
  | true =>
    rw [show withSign true a = -a from rfl, show withSign true b = -b from rfl,
      Set.uIoo_of_gt (neg_lt_neg hab)] at h
    obtain ⟨hlow, hhigh⟩ := h
    rw [abs_of_neg (by linarith)]
    exact ⟨by linarith, by linarith⟩

/-- Values of one sign whose ranks follow each other are adjacent. -/
theorem adjacent_of_rank_eq (negative : Bool) (h : n.rank = m.rank + 1) :
    (signed negative m).Adjacent (signed negative n) := by
  have hlt : m.toRat < n.toRat := Magnitude.toRat_lt_iff.mpr (by omega)
  constructor
  · rw [toRat_signed, toRat_signed]
    exact fun heq => hlt.ne (withSign_injective negative heq)
  · intro w hw
    obtain ⟨k, hk⟩ := w.exists_abs_toRat
    rw [toRat_signed, toRat_signed] at hw
    have hbetween := abs_mem_Ioo_of_mem_uIoo m.toRat_nonneg hlt hw
    rw [hk, Set.mem_Ioo, Magnitude.toRat_lt_iff, Magnitude.toRat_lt_iff] at hbetween
    omega

end Adjacent

end BinaryFloat

end ReversePolish
