import ReversePolish.Decimal.Layout
import ReversePolish.Proofs.Decimal.Nearest
import ReversePolish.Proofs.Literal.Reader
import Mathlib.Data.List.DropRight

/-! The positional text of a decimal writes its value. The digits without their trailing
zeros, together with the place of the point, already determine the value, and each of the
three ways to put the point among them pads with zeros that change nothing. -/

namespace ReversePolish.Decimal

open Text (Digits)

section Digits

theorem digits_eq_rdropWhile (d : Decimal) :
    d.digits = (Nat.toDigits 10 d.coefficient).rdropWhile (· == '0') := rfl

/-- The digits and the zeros that were dropped from them. -/
theorem exists_toDigits_eq (d : Decimal) :
    ∃ zeros, Nat.toDigits 10 d.coefficient = d.digits ++ List.replicate zeros '0' := by
  let dropped := (Nat.toDigits 10 d.coefficient).rtakeWhile (· == '0')
  have hzeros : dropped = List.replicate dropped.length '0' := by
    refine List.eq_replicate_of_mem fun c hc => ?_
    simpa using List.mem_rtakeWhile_imp hc
  refine ⟨dropped.length, ?_⟩
  rw [← hzeros, digits_eq_rdropWhile]
  exact List.rdropWhile_append_rtakeWhile.symm

theorem digits_digits (d : Decimal) : Digits d.digits := by
  obtain ⟨zeros, h⟩ := d.exists_toDigits_eq
  intro c hc
  refine Nat.isDigit_of_mem_toDigits (b := 10) (n := d.coefficient) (by decide) (by decide) ?_
  rw [h]
  exact List.mem_append_left _ hc

theorem length_digits_le (d : Decimal) :
    d.digits.length ≤ (Nat.toDigits 10 d.coefficient).length := by
  rw [digits_eq_rdropWhile]
  exact (List.rdropWhile_prefix _ _).length_le

/-- The zeros that were dropped make up the rest of the coefficient. -/
theorem coefficient_eq_digits {d : Decimal} {zeros : Nat}
    (h : Nat.toDigits 10 d.coefficient = d.digits ++ List.replicate zeros '0') :
    d.coefficient = 10 ^ zeros * Nat.ofDigitChars 10 d.digits 0 := by
  rw [← Nat.ofDigitChars_replicate_zero, ← Nat.ofDigitChars_append, ← h,
    Nat.ofDigitChars_ten_toDigits]

/-- The value in terms of what is written. -/
theorem toRat_eq_digits (d : Decimal) :
    d.toRat = Nat.ofDigitChars 10 d.digits 0 * 10 ^ (d.point - d.digits.length) := by
  obtain ⟨zeros, h⟩ := d.exists_toDigits_eq
  have hpoint : d.point - d.digits.length = zeros + d.exponent := by
    rw [point, h, List.length_append, List.length_replicate]
    push_cast
    ring
  rw [toRat, hpoint, zpow_add₀ (by decide), zpow_natCast]
  conv_lhs => rw [coefficient_eq_digits h]
  push_cast
  ring

end Digits

section Written

/-- The parts of the positional text. -/
def written (negative : Bool) (d : Decimal) : WrittenDecimal :=
  let s := d.digits
  if d.point ≤ 0 then ⟨negative, ['0'], List.replicate d.point.natAbs '0' ++ s, false, []⟩
  else if s.length ≤ d.point then
    ⟨negative, s ++ List.replicate (d.point.toNat - s.length) '0', [], false, []⟩
  else ⟨negative, s.take d.point.toNat, s.drop d.point.toNat, false, []⟩

variable (negative : Bool) (d : Decimal)

theorem digits_replicate_zero (n : Nat) : Digits (List.replicate n '0') := by
  intro c hc
  rw [List.eq_of_mem_replicate hc]
  rfl

theorem ofDigitChars_replicate_append (n : Nat) (s : Text) :
    Nat.ofDigitChars 10 (List.replicate n '0' ++ s) 0 = Nat.ofDigitChars 10 s 0 := by
  rw [Nat.ofDigitChars_append, Nat.ofDigitChars_replicate_zero, Nat.mul_zero]

@[simp] theorem written_negative : (d.written negative).negative = negative := by
  simp only [written]
  split_ifs <;> rfl

/-- The positional text consists of its parts. -/
theorem decimalText_positional :
    Literal.DecimalText (d.positional []) (d.written negative) := by
  have hdigits := d.digits_digits
  simp only [positional, written, Literal.DecimalText]
  split_ifs with hpoint hlength
  · refine ⟨'.' :: (List.replicate d.point.natAbs '0' ++ d.digits), [], by simp,
      digits_replicate_zero 1, .point _ ?_, .none, .inl (List.cons_ne_nil _ _)⟩
    exact List.forall_mem_append.mpr ⟨digits_replicate_zero _, hdigits⟩
  · refine ⟨[], [], by simp, ?_, .none, .none, .inl ?_⟩
    · exact List.forall_mem_append.mpr ⟨hdigits, digits_replicate_zero _⟩
    · rw [← List.length_pos_iff, List.length_append, List.length_replicate]
      omega
  · refine ⟨'.' :: d.digits.drop d.point.toNat, [], by simp, ?_, .point _ ?_, .none, .inl ?_⟩
    · exact fun c hc => hdigits c (List.mem_of_mem_take hc)
    · exact fun c hc => hdigits c (List.mem_of_mem_drop hc)
    · rw [← List.length_pos_iff, List.length_take]
      omega

theorem mem_positional_cases {wholeEnd : Text} {d : Decimal} {c : Char}
    (h : c ∈ d.positional wholeEnd) : c.isDigit ∨ c = '.' ∨ c ∈ wholeEnd := by
  simp only [positional] at h
  split_ifs at h
  · simp only [List.mem_cons, List.mem_append] at h
    rcases h with rfl | rfl | h | h
    · exact .inl rfl
    · exact .inr (.inl rfl)
    · exact .inl (digits_replicate_zero _ c h)
    · exact .inl (d.digits_digits c h)
  · simp only [List.mem_append] at h
    rcases h with (h | h) | h
    · exact .inl (d.digits_digits c h)
    · exact .inl (digits_replicate_zero _ c h)
    · exact .inr (.inr h)
  · simp only [List.mem_cons, List.mem_append] at h
    rcases h with h | rfl | h
    · exact .inl (d.digits_digits c (List.mem_of_mem_take h))
    · exact .inr (.inl rfl)
    · exact .inl (d.digits_digits c (List.mem_of_mem_drop h))

theorem mem_positional {d : Decimal} {c : Char} (h : c ∈ d.positional []) :
    c.isDigit ∨ c = '.' := by
  simpa using mem_positional_cases h

theorem toDecimal_of_no_exponent (whole fraction : Text) :
    (WrittenDecimal.mk negative whole fraction false []).toDecimal =
      ⟨Nat.ofDigitChars 10 (whole ++ fraction) 0, -fraction.length⟩ := by
  simp [WrittenDecimal.toDecimal]

/-- The zeros around the digits do not count. -/
theorem toRat_written : (d.written negative).toDecimal.toRat = d.toRat := by
  rw [toRat_eq_digits d]
  simp only [written]
  split_ifs with hpoint hlength
  · have hzeros := ofDigitChars_replicate_append (d.point.natAbs + 1) d.digits
    have hlength : (List.replicate d.point.natAbs '0' ++ d.digits).length =
        d.point.natAbs + d.digits.length := by simp
    have hexponent : -((d.point.natAbs + d.digits.length : Nat) : ℤ) =
        d.point - d.digits.length := by omega
    rw [toDecimal_of_no_exponent, hlength, hexponent, toRat, ← hzeros]
    rfl
  · obtain ⟨zeros, hzeros⟩ : ∃ zeros : Nat, d.point - d.digits.length = zeros :=
      Int.eq_ofNat_of_zero_le (by omega)
    have hpad : d.point.toNat - d.digits.length = zeros := by omega
    rw [toDecimal_of_no_exponent, hpad, hzeros, toRat, List.append_nil, Nat.ofDigitChars_append,
      Nat.ofDigitChars_replicate_zero]
    simp
    ring
  · have hexponent : -((d.digits.length - d.point.toNat : Nat) : ℤ) =
        d.point - d.digits.length := by omega
    rw [toDecimal_of_no_exponent, List.take_append_drop, List.length_drop, hexponent, toRat]

/-- No group is much longer than the coefficient or the distance of the point. -/
theorem length_le_of_mem_groups {s : Text} (h : s ∈ (d.written negative).groups) :
    s.length ≤ d.digits.length + d.point.natAbs + 1 := by
  simp only [written, WrittenDecimal.groups] at h
  split_ifs at h <;> simp at h <;> rcases h with rfl | rfl | rfl <;> simp <;> omega

end Written

end ReversePolish.Decimal
