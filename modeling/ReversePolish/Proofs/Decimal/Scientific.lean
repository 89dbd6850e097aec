import ReversePolish.Proofs.Decimal.Significant
import ReversePolish.Proofs.Literal.Rounding

/-! Texts that write a number: positional ones, with a point in whole numbers or without, and
those with a power of ten. Each is a decimal literal whose digits and power of ten give the
number back, and the literal is read if its groups of digits are not too long. -/

namespace ReversePolish.Decimal

open Literal (DecimalText ExponentText)
open LiteralError (digitLimit)
open Text (Digits)

/-- The text has the given parts, which are converted and make up the number. -/
structure WrittenAs (d : Decimal) (s : Text) (w : WrittenDecimal) : Prop where
  text : DecimalText s w
  value : w.toDecimal.toRat = d.toRat
  converted : ∀ group ∈ w.groups, group.length ≤ digitLimit

variable {d : Decimal} {s : Text} {w : WrittenDecimal}

/-- A text that writes the number is read as its nearest value. -/
theorem WrittenAs.value_eq (h : d.WrittenAs s w) :
    w.value = .ok (.signed w.negative d.nearest) := by
  have hshort : ∀ group ∈ w.groups, WrittenDecimal.overlong group = false := fun group hgroup =>
    decide_eq_false (h.converted group hgroup).not_gt
  rw [WrittenDecimal.value_of_not_overlong hshort, nearest_congr h.value]

/-- The positional text of a number that has no point of its own if it is whole. -/
theorem writtenAs_positional (negative : Bool) (d : Decimal)
    (hlimit : d.digits.length + d.point.natAbs < digitLimit) :
    d.WrittenAs (d.positional []) (d.written negative) where
  text := d.decimalText_positional negative
  value := d.toRat_written negative
  converted _ hgroup := (d.length_le_of_mem_groups negative hgroup).trans hlimit

section Pointed

/-- Whether the digits end before the point. -/
def IsWhole (d : Decimal) : Prop := 0 < d.point ∧ d.digits.length ≤ d.point

theorem positional_of_isWhole (h : d.IsWhole) (wholeEnd : Text) :
    d.positional wholeEnd = d.positional [] ++ wholeEnd := by
  simp only [positional, if_neg h.1.not_ge, if_pos h.2, List.append_nil]

theorem positional_of_not_isWhole (h : ¬d.IsWhole) (wholeEnd : Text) :
    d.positional wholeEnd = d.positional [] := by
  simp only [positional]
  split_ifs with hpoint hlength
  · rfl
  · exact absurd ⟨not_le.mp hpoint, hlength⟩ h
  · rfl

theorem written_of_isWhole (h : d.IsWhole) (negative : Bool) :
    d.written negative = ⟨negative, d.positional [], [], false, []⟩ := by
  simp only [written, positional, if_neg h.1.not_ge, if_pos h.2, List.append_nil]

theorem digits_positional (h : d.IsWhole) : Digits (d.positional []) := by
  simp only [positional, if_neg h.1.not_ge, if_pos h.2, List.append_nil]
  exact List.forall_mem_append.mpr ⟨d.digits_digits, digits_replicate_zero _⟩

/-- A zero after the point changes nothing. -/
theorem toRat_zero_fraction (negative : Bool) (whole : Text) :
    (WrittenDecimal.mk negative whole ['0'] false []).toDecimal.toRat =
      (WrittenDecimal.mk negative whole [] false []).toDecimal.toRat := by
  rw [toDecimal_of_no_exponent, toDecimal_of_no_exponent, toRat, toRat, Nat.ofDigitChars_append,
    List.append_nil]
  norm_num [Nat.ofDigitChars]
  ring

/-- A whole number is written with a point as well. -/
theorem exists_writtenAs_pointed (negative : Bool) (d : Decimal)
    (hlimit : d.digits.length + d.point.natAbs < digitLimit) :
    ∃ w, w.negative = negative ∧ d.WrittenAs (d.positional ".0".toList) w := by
  have hplain := d.writtenAs_positional negative hlimit
  by_cases hwhole : d.IsWhole
  · obtain ⟨-, hvalue, hgroups⟩ := hplain
    rw [written_of_isWhole hwhole] at hvalue hgroups
    rw [positional_of_isWhole hwhole]
    refine ⟨⟨negative, d.positional [], ['0'], false, []⟩, rfl, ?_, ?_, ?_⟩
    · exact ⟨".0".toList, [], by simp, digits_positional hwhole,
        .point _ (digits_replicate_zero 1), .none, .inr (List.cons_ne_nil _ _)⟩
    · rw [toRat_zero_fraction, hvalue]
    · simp only [WrittenDecimal.groups, List.forall_mem_cons] at hgroups ⊢
      exact ⟨hgroups.1, Nat.le_of_lt (by decide), hgroups.2.2⟩
  · rw [positional_of_not_isWhole hwhole]
    exact ⟨d.written negative, d.written_negative negative, hplain⟩

end Pointed

section Power

/-- The parts of the text with a power of ten. -/
def writtenPower (negative : Bool) (d : Decimal) : WrittenDecimal where
  negative := negative
  whole := d.digits.take 1
  fraction := d.digits.drop 1
  exponentNegative := d.order < 0
  exponent := (Text.ofNat d.order.natAbs).leftpad 2 '0'

variable (negative : Bool)

theorem exponentText_power (order : ℤ) :
    ExponentText ('e' :: (if order < 0 then '-' else '+') ::
      (Text.ofNat order.natAbs).leftpad 2 '0') (order < 0)
      ((Text.ofNat order.natAbs).leftpad 2 '0') := by
  have hne : (Text.ofNat order.natAbs).leftpad 2 '0' ≠ [] := by
    rw [← List.length_pos_iff, List.length_leftpad]
    omega
  have hdigits : Digits ((Text.ofNat order.natAbs).leftpad 2 '0') :=
    List.forall_mem_append.mpr ⟨digits_replicate_zero _, fun _ hc =>
      Nat.isDigit_of_mem_toDigits (by decide) (by decide) hc⟩
  by_cases h : order < 0
  · simp only [h, if_true, decide_true]
    exact .power 'e' (.inl rfl) ['-'] _ true .minus hne hdigits
  · simp only [h, if_false, decide_false]
    exact .power 'e' (.inl rfl) ['+'] _ false .plus hne hdigits

theorem decimalText_scientific (hd : d.coefficient ≠ 0) :
    DecimalText d.scientific (d.writtenPower negative) := by
  obtain ⟨first, rest, hcons, -⟩ := exists_digits_cons hd
  have hdigits : Digits (first :: rest) := hcons ▸ d.digits_digits
  have hwhole : Digits ((first :: rest).take 1) := fun c hc => hdigits c (List.mem_of_mem_take hc)
  have hpower := exponentText_power d.order
  rw [scientific, writtenPower, hcons]
  cases rest with
  | nil =>
    exact ⟨[], _, rfl, hwhole, .none, hpower, .inl (List.cons_ne_nil _ _)⟩
  | cons second rest =>
    have hfraction : Digits (second :: rest) := fun c hc => hdigits c (List.mem_cons_of_mem _ hc)
    exact ⟨'.' :: second :: rest, _, rfl, hwhole, .point _ hfraction, hpower,
      .inl (List.cons_ne_nil _ _)⟩

/-- The power of ten is that of the first digit, and the others follow it. -/
theorem toRat_writtenPower (hd : d.coefficient ≠ 0) :
    (d.writtenPower negative).toDecimal.toRat = d.toRat := by
  obtain ⟨first, rest, hcons, -⟩ := exists_digits_cons hd
  have hlength : 1 ≤ d.digits.length := by simp [hcons]
  have hpower : Nat.ofDigitChars 10 (d.writtenPower negative).exponent 0 = d.order.natAbs := by
    rw [writtenPower, List.leftpad, ofDigitChars_replicate_append, Text.ofNat,
      Nat.ofDigitChars_ten_toDigits]
  have hexponent : (d.writtenPower negative).toDecimal.exponent = d.point - d.digits.length := by
    have horder : d.order = d.point - 1 := rfl
    simp only [WrittenDecimal.toDecimal, hpower]
    simp only [writtenPower, decide_eq_true_eq, List.length_drop]
    split_ifs <;> omega
  have hcoefficient : (d.writtenPower negative).toDecimal.coefficient =
      Nat.ofDigitChars 10 d.digits 0 := by
    simp only [WrittenDecimal.toDecimal, writtenPower, List.take_append_drop]
  rw [toRat_eq_digits d, toRat, hexponent, hcoefficient]

/-- One digit before the point, and a power of ten, write the number. -/
theorem writtenAs_scientific (hd : d.coefficient ≠ 0) (hdigits : d.digits.length ≤ digitLimit)
    (hpower : d.order.natAbs < 10 ^ digitLimit) :
    d.WrittenAs d.scientific (d.writtenPower negative) where
  text := decimalText_scientific negative hd
  value := toRat_writtenPower negative hd
  converted group hgroup := by
    have hlength : (Text.ofNat d.order.natAbs).length ≤ digitLimit :=
      (Nat.length_toDigits_le_iff (by decide) (by decide)).mpr hpower
    have htwo : 2 ≤ digitLimit := by decide
    simp only [WrittenDecimal.groups, writtenPower, List.mem_cons, List.not_mem_nil,
      or_false] at hgroup
    rcases hgroup with rfl | rfl | rfl
    · rw [List.length_take]
      omega
    · rw [List.length_drop]
      omega
    · rw [List.length_leftpad]
      exact max_le htwo hlength

end Power

end ReversePolish.Decimal
