import ReversePolish.Proofs.Binary.Widening
import ReversePolish.Proofs.Decimal.Minimal
import ReversePolish.Proofs.Decimal.Scientific
import ReversePolish.Proofs.Display.RoundTrip
import ReversePolish.Proofs.Token.Words

/-! The source text of a token reads back as the token. A number is written in double
precision, with the digits that identify it there, and read in single precision. Nothing is
lost in between: the number itself is a value of double precision, so that whatever rounds to
it there rounds to it in single precision, too. -/

namespace ReversePolish

open Binary
open LiteralError (digitLimit)
open NumberStyle (general)

section Writing

variable {m : Magnitude .double}

/-- The texts of double precision have no group of digits that is too long to be converted. -/
theorem shortest_converted (m : Magnitude .double) :
    m.shortest.digits.length + 16 < digitLimit ∧ m.shortest.order.natAbs < 10 ^ digitLimit := by
  obtain ⟨hcoefficient, hpoint⟩ := m.shortest_bounds
  have hdigits := m.shortest.length_digits_le
  have hbound : Magnitude.digitBound .double = 3174 := rfl
  have horder : m.shortest.order = m.shortest.point - 1 := rfl
  rw [hbound] at hcoefficient hpoint
  constructor
  · have hlimit : digitLimit = 4300 := rfl
    omega
  · calc m.shortest.order.natAbs < 10 ^ 4 := by omega
      _ ≤ 10 ^ digitLimit := Nat.pow_le_pow_right (by decide) (by decide)

/-- A finite value is written by its shortest decimal, positionally or with a power of ten. -/
theorem exists_writtenAs_general (negative : Bool) (hfinite : m.isInfinite = false)
    (hzero : m.isZero = false) :
    ∃ w, w.negative = negative ∧ m.shortest.WrittenAs (general.magnitude m) w := by
  obtain ⟨hdigits, hpower⟩ := shortest_converted m
  have horder : m.shortest.order = m.shortest.point - 1 := rfl
  simp only [NumberStyle.magnitude, hfinite, hzero, Bool.false_eq_true, if_false]
  split_ifs with hpositional
  · simp only [general, Bool.and_eq_true, decide_eq_true_eq] at hpositional
    exact m.shortest.exists_writtenAs_pointed negative (by omega)
  · have hcoefficient := Magnitude.coefficient_ne_zero hzero m.nearest_shortest
    exact ⟨_, rfl, Decimal.writtenAs_scientific negative hcoefficient (by omega) hpower⟩

end Writing

section Reading

/-- The decimal that identifies a value in double precision rounds to it in single precision. -/
theorem nearest_shortest_of_toRat_eq {m : Magnitude .single} {wide : Magnitude .double}
    (h : wide.toRat = m.toRat) : wide.shortest.nearest = m := by
  have hwide : Magnitude.IsNearest wide.shortest.toRat wide := by
    have hnear := wide.shortest.isNearest_nearest (f := .double) (by decide)
    rwa [wide.nearest_shortest] at hnear
  exact hwide.narrow Format.single_refines_double h
    (wide.shortest.isNearest_nearest (by decide))

theorem ofWord_source_of_finite (negative : Bool) {m : Magnitude .single}
    (hfinite : m.isInfinite = false) (hzero : m.isZero = false) :
    Token.ofWord (Token.source (.number (.signed negative m))) =
      .ok (.number (.signed negative m)) := by
  obtain ⟨wide, hconvert, hvalue, hwide⟩ := Magnitude.exists_widening (g := .double) (by decide)
    Format.single_refines_double negative hfinite
  have hpos : wide.isZero = false := by
    rw [← Magnitude.toRat_pos_iff, hvalue, Magnitude.toRat_pos_iff]
    exact hzero
  obtain ⟨w, hsign, hw⟩ := exists_writtenAs_general negative hwide hpos
  have htext : Literal.LiteralText (writtenSign negative ++ general.magnitude wide) (.decimal w) :=
    .decimal _ _ w (hsign ▸ signText_writtenSign negative) hw.text
  have hsource : Token.source (.number (.signed negative m)) =
      writtenSign negative ++ general.magnitude wide := by
    change general.write _ = _
    rw [hconvert, NumberStyle.write_signed]
  rw [hsource, Token.ofWord_of_literal htext, Literal.value, hw.value_eq, hsign,
    nearest_shortest_of_toRat_eq hvalue]
  rfl

theorem ofWord_source_number (v : Binary32) :
    Token.ofWord (Token.source (.number v)) = .ok (.number v) := by
  cases v with
  | nan => rfl
  | signed negative m =>
    by_cases hinf : m.isInfinite
    · obtain rfl : m = .infinity := Magnitude.ext (eq_of_beq hinf)
      cases negative <;> decide +kernel
    · by_cases hzero : m.isZero
      · obtain rfl : m = .zero := Magnitude.ext (eq_of_beq hzero)
        cases negative <;> decide +kernel
      · exact ofWord_source_of_finite negative (Bool.eq_false_of_not_eq_true hinf)
          (Bool.eq_false_of_not_eq_true hzero)

theorem ofWord_symbol_source {entry : Text × Token} (hentry : entry ∈ Token.symbols) :
    Token.ofWord entry.1 = .ok entry.2 := by
  have hall : ∀ entry ∈ Token.symbols, Token.ofWord entry.1 = .ok entry.2 := by decide +kernel
  exact hall entry hentry

/-- Every token has a source text that reads back as it, numbers bit for bit. -/
theorem Token.source_reads_back (t : Token) : ofWord t.source = .ok t := by
  cases t with
  | number v => exact ofWord_source_number v
  | constant c => cases c <;> rfl
  | unary op => exact ofWord_symbol_source (mem_symbols_of_isOperator (t := .unary op) rfl)
  | binary op => exact ofWord_symbol_source (mem_symbols_of_isOperator (t := .binary op) rfl)
  | invalid => rfl

-- The smallest value, in the digits of double precision.
example : Token.source (.number (.ofBits 1)) = "1.401298464324817e-45".toList := by
  decide +kernel

end Reading

end ReversePolish
