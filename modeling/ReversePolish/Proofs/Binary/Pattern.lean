import ReversePolish.Binary.Basic
import Mathlib.Data.BitVec

/-! Bit patterns of single precision by their fields: a sign, eight bits of exponent, and
twenty-three bits of fraction. The fields say what kind of value a pattern is read as, and
patterns that are read as the same value are the same, unless neither is a number. -/

namespace ReversePolish.Binary32

open Binary BinaryFloat

variable {b b' : BitVec 32}

def exponentField (b : BitVec 32) : BitVec 8 := b.extractLsb' 23 8

def fractionField (b : BitVec 32) : BitVec 23 := b.extractLsb' 0 23

def IsNaNPattern (b : BitVec 32) : Prop := exponentField b = 255#8 ∧ fractionField b ≠ 0#23

def IsInfinitePattern (b : BitVec 32) : Prop := exponentField b = 255#8 ∧ fractionField b = 0#23

def IsFinitePattern (b : BitVec 32) : Prop := exponentField b ≠ 255#8

def IsZeroPattern (b : BitVec 32) : Prop := exponentField b = 0#8 ∧ fractionField b = 0#23

section Fields

theorem pattern_cases (b : BitVec 32) :
    IsNaNPattern b ∨ IsInfinitePattern b ∨ IsFinitePattern b := by
  rw [IsNaNPattern, IsInfinitePattern, IsFinitePattern]
  tauto

/-- Without its sign a pattern consists of its fields. -/
theorem toNat_fields (b : BitVec 32) :
    b.toNat % 2 ^ 31 = (exponentField b).toNat * 2 ^ 23 + (fractionField b).toNat ∧
      (exponentField b).toNat < 2 ^ 8 ∧ (fractionField b).toNat < 2 ^ 23 := by
  refine ⟨?_, (exponentField b).isLt, (fractionField b).isLt⟩
  simp only [exponentField, fractionField, BitVec.extractLsb'_toNat, Nat.shiftRight_eq_div_pow]
  omega

theorem isNaNPattern_iff : IsNaNPattern b ↔ 255 * 2 ^ 23 < b.toNat % 2 ^ 31 := by
  obtain ⟨hfields, hexponent, hfraction⟩ := toNat_fields b
  simp only [IsNaNPattern, ne_eq, ← BitVec.toNat_inj, BitVec.toNat_ofNat]
  omega

theorem isInfinitePattern_iff : IsInfinitePattern b ↔ b.toNat % 2 ^ 31 = 255 * 2 ^ 23 := by
  obtain ⟨hfields, hexponent, hfraction⟩ := toNat_fields b
  simp only [IsInfinitePattern, ← BitVec.toNat_inj, BitVec.toNat_ofNat]
  omega

theorem isFinitePattern_iff : IsFinitePattern b ↔ b.toNat % 2 ^ 31 < 255 * 2 ^ 23 := by
  obtain ⟨hfields, hexponent, hfraction⟩ := toNat_fields b
  simp only [IsFinitePattern, ne_eq, ← BitVec.toNat_inj, BitVec.toNat_ofNat]
  omega

theorem isZeroPattern_iff : IsZeroPattern b ↔ b.toNat % 2 ^ 31 = 0 := by
  obtain ⟨hfields, hexponent, hfraction⟩ := toNat_fields b
  simp only [IsZeroPattern, ← BitVec.toNat_inj, BitVec.toNat_ofNat]
  omega

end Fields

section Reading

theorem ofBits_eq (b : BitVec 32) : (ofBits b.toNat : Binary32) =
    if h : b.toNat % 2 ^ 31 ≤ 255 * 2 ^ 23 then .signed b.msb ⟨b.toNat % 2 ^ 31, h⟩ else .nan := by
  rw [BitVec.msb_eq_decide]
  rfl

theorem ofBits_eq_nan_iff : (ofBits b.toNat : Binary32) = .nan ↔ IsNaNPattern b := by
  rw [ofBits_eq, isNaNPattern_iff]
  split_ifs with h
  · exact iff_of_false (by rintro ⟨⟩) h.not_gt
  · exact iff_of_true rfl (not_le.mp h)

theorem ofBits_of_isInfinitePattern (h : IsInfinitePattern b) :
    (ofBits b.toNat : Binary32) = .infinity b.msb := by
  have hrank := isInfinitePattern_iff.mp h
  rw [ofBits_eq, dif_pos hrank.le]
  exact congrArg (signed b.msb) (Magnitude.ext hrank)

theorem ofBits_of_isZeroPattern (h : IsZeroPattern b) :
    (ofBits b.toNat : Binary32) = .zero b.msb := by
  have hrank := isZeroPattern_iff.mp h
  rw [ofBits_eq, dif_pos (hrank.trans_le (Nat.zero_le _))]
  exact congrArg (signed b.msb) (Magnitude.ext hrank)

theorem exists_of_isFinitePattern (h : IsFinitePattern b) :
    ∃ m : Magnitude .single, ofBits b.toNat = .signed b.msb m ∧ m.isInfinite = false := by
  have hrank := isFinitePattern_iff.mp h
  rw [ofBits_eq, dif_pos hrank.le]
  exact ⟨_, rfl, beq_eq_false_iff_ne.mpr hrank.ne⟩

theorem ofBits_inj : (ofBits b.toNat : Binary32) = ofBits b'.toNat ↔
    b = b' ∨ IsNaNPattern b ∧ IsNaNPattern b' := by
  constructor
  · intro heq
    by_cases hnan : IsNaNPattern b
    · exact .inr ⟨hnan, ofBits_eq_nan_iff.mp (heq ▸ ofBits_eq_nan_iff.mpr hnan)⟩
    · have hnan' : ¬IsNaNPattern b' := fun h =>
        hnan (ofBits_eq_nan_iff.mp (heq ▸ ofBits_eq_nan_iff.mpr h))
      rw [isNaNPattern_iff, not_lt] at hnan hnan'
      rw [ofBits_eq, ofBits_eq, dif_pos hnan, dif_pos hnan', BitVec.msb_eq_decide,
        BitVec.msb_eq_decide] at heq
      injection heq with hsign hrank
      injection hrank with hrank
      rw [decide_eq_decide] at hsign
      have hlt := b.isLt
      have hlt' := b'.isLt
      exact .inl (BitVec.eq_of_toNat_eq (by omega))
  · rintro (rfl | ⟨hnan, hnan'⟩)
    · rfl
    · rw [ofBits_eq_nan_iff.mpr hnan, ofBits_eq_nan_iff.mpr hnan']

end Reading

end ReversePolish.Binary32
