import ReversePolish.Proofs.Binary.Signed
import ReversePolish.Proofs.Literal.Rounding
import ReversePolish.Proofs.Token.Classification

/-! Decimals as words. A word that writes a decimal and has a token at all has the number with
the sign that is written and the value rounded once. -/

namespace ReversePolish

open Binary
open Literal (SignText DecimalText)

/-- The number that is written, with its sign. -/
def WrittenDecimal.toRat (w : WrittenDecimal) : ℚ := withSign w.negative w.toDecimal.toRat

theorem WrittenDecimal.isRounded_nearest (w : WrittenDecimal) :
    (BinaryFloat.signed w.negative w.toDecimal.nearest).IsRounded w.toRat := by
  have hnearest : (w.toDecimal.nearest : Magnitude .single).IsNearest w.toDecimal.toRat :=
    w.toDecimal.isNearest_nearest (by decide)
  exact hnearest.isRounded w.toDecimal.toRat_nonneg w.negative

namespace Token

variable {sign body : Text} {w : WrittenDecimal}

/-- The number of a word that writes a decimal is the decimal rounded once, over the whole
range: below the smallest value, at the borders of binades, and beyond the largest. -/
theorem ofWord_decimal_isRounded (hsign : SignText sign w.negative) (hbody : DecimalText body w)
    (hread : ∀ e, ofWord (sign ++ body) ≠ .error e) :
    ∃ m, ofWord (sign ++ body) = .ok (.number (.signed w.negative m)) ∧
      (BinaryFloat.signed w.negative m).IsRounded w.toRat := by
  have hword : ofWord (sign ++ body) = w.value.map number :=
    ofWord_of_literal (.decimal sign body w hsign hbody)
  cases hvalue : w.value with
  | ok v =>
    rw [hvalue, WrittenDecimal.value_eq_ok hvalue, w.rounded_eq] at hword
    exact ⟨_, hword, w.isRounded_nearest⟩
  | error e =>
    rw [hvalue] at hword
    exact absurd hword (hread e)

theorem ofWord_decimal_isRounded_below_midpoint :
    let w : WrittenDecimal := ⟨false, ['1'], "00000017881393432617187499".toList, false, []⟩
    ∃ m, ofWord "1.00000017881393432617187499".toList = .ok (.number (.signed false m)) ∧
      (BinaryFloat.signed false m).IsRounded w.toRat := by
  intro w
  have hfraction : Text.Digits w.fraction := List.all_eq_true.mp rfl
  have hbody : DecimalText "1.00000017881393432617187499".toList w :=
    ⟨'.' :: w.fraction, [], rfl, List.all_eq_true.mp rfl, .point _ hfraction, .none,
      .inl (List.cons_ne_nil _ _)⟩
  have hread : ∀ e, ofWord ([] ++ "1.00000017881393432617187499".toList) ≠ .error e := by
    intro e he
    rw [ofWord_of_literal (.decimal [] _ w .none hbody)] at he
    cases he
  exact @ofWord_decimal_isRounded [] _ w .none hbody hread

end Token

end ReversePolish
