import ReversePolish.Literal
import ReversePolish.Proofs.Text.Letters
import Mathlib.Data.List.TakeWhile

/-! The texts of a decimal, and reading them. A decimal may be written in several ways:
with or without a sign, with a point that no digit follows, with a small or a capital
mark before its power of ten. Reading an unsigned text finds the decimal that it writes,
and fails exactly if it writes none. -/

namespace ReversePolish

def Text.Digits (s : Text) : Prop := ∀ c ∈ s, c.isDigit

namespace Literal

open Text (Digits)

/-- A sign, or none, and whether it is negative. -/
inductive SignText : Text → Bool → Prop
  | none : SignText [] false
  | plus : SignText ['+'] false
  | minus : SignText ['-'] true

/-- A point and the digits after it, or nothing. -/
inductive FractionText : Text → Text → Prop
  | none : FractionText [] []
  | point (digits : Text) (h : Digits digits) : FractionText ('.' :: digits) digits

/-- A power of ten with the sign and the digits of its exponent, or nothing. -/
inductive ExponentText : Text → Bool → Text → Prop
  | none : ExponentText [] false []
  | power (mark : Char) (hmark : mark = 'e' ∨ mark = 'E') (sign digits : Text) (negative : Bool)
    (hsign : SignText sign negative) (hne : digits ≠ []) (hdigits : Digits digits) :
    ExponentText (mark :: (sign ++ digits)) negative digits

/-- An unsigned text of a decimal. -/
def DecimalText (s : Text) (w : WrittenDecimal) : Prop :=
  ∃ middle tail, s = w.whole ++ (middle ++ tail) ∧ Digits w.whole ∧
    FractionText middle w.fraction ∧ ExponentText tail w.exponentNegative w.exponent ∧
    (w.whole ≠ [] ∨ w.fraction ≠ [])

section Sign

theorem splitSign_append {sign body : Text} {negative : Bool} (h : SignText sign negative)
    (hbody : ∀ c ∈ body.head?, c ≠ '+' ∧ c ≠ '-') :
    splitSign (sign ++ body) = (negative, body) := by
  cases h with
  | plus => rfl
  | minus => rfl
  | none =>
    rcases body with _ | ⟨c, body⟩
    · rfl
    · have hc := hbody c rfl
      rw [List.nil_append, splitSign]
      · rintro rest ⟨rfl⟩
        exact hc.2 rfl
      · rintro rest ⟨rfl⟩
        exact hc.1 rfl

theorem exists_splitSign (s : Text) :
    ∃ sign, SignText sign (splitSign s).1 ∧ s = sign ++ (splitSign s).2 := by
  unfold splitSign
  split
  · exact ⟨_, .minus, rfl⟩
  · exact ⟨_, .plus, rfl⟩
  · exact ⟨_, .none, rfl⟩

theorem isDigit_ne_sign {c : Char} (h : c.isDigit) : c ≠ '+' ∧ c ≠ '-' := by
  constructor <;> rintro rfl <;> simp at h

end Sign

section Digits

theorem splitDigits_append {digits rest : Text} (h : Digits digits)
    (hrest : ∀ c ∈ rest.head?, ¬c.isDigit) : splitDigits (digits ++ rest) = (digits, rest) := by
  rw [splitDigits, List.takeWhile_append_of_pos h, List.dropWhile_append_of_pos h]
  rcases rest with _ | ⟨c, rest⟩
  · simp
  · have hc := hrest c rfl
    simp [hc]

theorem splitDigits_fst_append_snd (s : Text) : s = (splitDigits s).1 ++ (splitDigits s).2 :=
  List.takeWhile_append_dropWhile.symm

theorem digits_splitDigits_fst (s : Text) : Digits (splitDigits s).1 :=
  fun _ hc => List.mem_takeWhile_imp hc

end Digits

section Fraction

theorem splitFraction_append {middle fraction tail : Text} (h : FractionText middle fraction)
    (htail : ∀ c ∈ tail.head?, ¬c.isDigit ∧ c ≠ '.') :
    splitFraction (middle ++ tail) = (fraction, tail) := by
  cases h with
  | point digits h => exact splitDigits_append h fun c hc => (htail c hc).1
  | none =>
    rcases tail with _ | ⟨c, tail⟩
    · rfl
    · have hc := (htail c rfl).2
      rw [List.nil_append, splitFraction]
      rintro rest ⟨rfl⟩
      exact hc rfl

theorem exists_splitFraction (s : Text) :
    ∃ middle, FractionText middle (splitFraction s).1 ∧ s = middle ++ (splitFraction s).2 := by
  unfold splitFraction
  split
  · rename_i rest
    refine ⟨'.' :: (splitDigits rest).1, .point _ (digits_splitDigits_fst rest), ?_⟩
    rw [List.cons_append, ← splitDigits_fst_append_snd]
  · exact ⟨[], .none, rfl⟩

theorem FractionText.head {middle fraction : Text} (h : FractionText middle fraction) :
    ∀ c ∈ middle.head?, ¬c.isDigit := by
  cases h with
  | none => simp
  | point digits h =>
    rintro c ⟨rfl⟩
    decide

end Fraction

section Exponent

theorem ExponentText.head {tail digits : Text} {negative : Bool}
    (h : ExponentText tail negative digits) : ∀ c ∈ tail.head?, ¬c.isDigit ∧ c ≠ '.' := by
  cases h with
  | none => simp
  | power mark hmark =>
    rintro c ⟨rfl⟩
    rcases hmark with rfl | rfl <;> decide

theorem exponentOf?_of_exponentText {tail digits : Text} {negative : Bool}
    (h : ExponentText tail negative digits) : exponentOf? tail = some (negative, digits) := by
  cases h with
  | none => rfl
  | power mark hmark sign digits negative hsign hne hdigits =>
    have hsplit : splitSign (sign ++ digits) = (negative, digits) := by
      refine splitSign_append hsign fun c hc => ?_
      exact isDigit_ne_sign (hdigits c (List.mem_of_mem_head? hc))
    simp only [exponentOf?, hsplit]
    rw [if_pos]
    simpa [hmark, hne, Digits] using hdigits

theorem exponentText_of_exponentOf? {tail digits : Text} {negative : Bool}
    (h : exponentOf? tail = some (negative, digits)) : ExponentText tail negative digits := by
  rcases tail with _ | ⟨mark, rest⟩
  · cases h
    exact .none
  · obtain ⟨sign, hsign, hrest⟩ := exists_splitSign rest
    simp only [exponentOf?] at h
    split_ifs at h with hcond
    cases h
    simp only [Bool.and_eq_true, Bool.or_eq_true, beq_iff_eq, Bool.not_eq_true',
      List.isEmpty_eq_false_iff, List.all_eq_true] at hcond
    obtain ⟨⟨hmark, hne⟩, hdigits⟩ := hcond
    have hpower := ExponentText.power mark hmark sign _ _ hsign hne hdigits
    rwa [← hrest] at hpower

theorem exponentOf?_eq_some_iff {tail digits : Text} {negative : Bool} :
    exponentOf? tail = some (negative, digits) ↔ ExponentText tail negative digits :=
  ⟨exponentText_of_exponentOf?, exponentOf?_of_exponentText⟩

end Exponent

section Decimal

theorem decimalOf?_of_decimalText {s : Text} {w : WrittenDecimal} (h : DecimalText s w) :
    decimalOf? w.negative s = some w := by
  obtain ⟨middle, tail, rfl, hwhole, hfraction, hexponent, hne⟩ := h
  have hmiddle : ∀ c ∈ (middle ++ tail).head?, ¬c.isDigit := by
    intro c hc
    rcases middle with _ | ⟨d, middle⟩
    · exact (hexponent.head c hc).1
    · exact hfraction.head c hc
  have hempty : (w.whole.isEmpty && w.fraction.isEmpty) = false := by
    simpa [or_iff_not_imp_left] using hne
  simp [decimalOf?, splitDigits_append hwhole hmiddle,
    splitFraction_append hfraction hexponent.head, hempty, exponentOf?_of_exponentText hexponent]

theorem decimalText_of_decimalOf? {negative : Bool} {s : Text} {w : WrittenDecimal}
    (h : decimalOf? negative s = some w) : w.negative = negative ∧ DecimalText s w := by
  obtain ⟨middle, hfraction, hmiddle⟩ := exists_splitFraction (splitDigits s).2
  simp only [decimalOf?] at h
  split_ifs at h with hempty
  obtain ⟨⟨exponentNegative, exponent⟩, hexponent, rfl⟩ := Option.map_eq_some_iff.mp h
  refine ⟨rfl, middle, _, ?_, digits_splitDigits_fst s, hfraction,
    exponentOf?_eq_some_iff.mp hexponent, ?_⟩
  · rw [← hmiddle]
    exact splitDigits_fst_append_snd s
  · simpa [or_iff_not_imp_left] using hempty

/-- An unsigned text is read as the decimal that it writes, if it writes one. -/
theorem decimalOf?_eq_some_iff {negative : Bool} {s : Text} {w : WrittenDecimal} :
    decimalOf? negative s = some w ↔ w.negative = negative ∧ DecimalText s w :=
  ⟨decimalText_of_decimalOf?, fun ⟨hnegative, h⟩ => hnegative ▸ decimalOf?_of_decimalText h⟩

theorem DecimalText.head {s : Text} {w : WrittenDecimal} (h : DecimalText s w) :
    ∃ c rest, s = c :: rest ∧ (c.isDigit ∨ c = '.') := by
  obtain ⟨middle, tail, rfl, hwhole, hfraction, -, hne⟩ := h
  generalize w.whole = whole at hwhole hne
  generalize w.fraction = fraction at hfraction hne
  rcases whole with _ | ⟨c, whole⟩
  · cases hfraction with
    | point digits h => exact ⟨'.', _, rfl, .inr rfl⟩
    | none => simp at hne
  · exact ⟨c, _, rfl, .inl (hwhole c List.mem_cons_self)⟩

end Decimal

section Word

/-- The words of a literal. -/
inductive LiteralText : Text → Literal → Prop
  | infinity (sign body : Text) (negative : Bool) (hsign : SignText sign negative)
    (h : body.spells "inf".toList ∨ body.spells "infinity".toList) :
    LiteralText (sign ++ body) (.infinity negative)
  | nan (sign body : Text) (negative : Bool) (hsign : SignText sign negative)
    (h : body.spells "nan".toList) : LiteralText (sign ++ body) .nan
  | decimal (sign body : Text) (w : WrittenDecimal) (hsign : SignText sign w.negative)
    (h : DecimalText body w) : LiteralText (sign ++ body) (.decimal w)

/-- The literal of a word without its sign. -/
def ofBody? (negative : Bool) (body : Text) : Option Literal :=
  if body.spells "inf".toList || body.spells "infinity".toList then some (.infinity negative)
  else if body.spells "nan".toList then some .nan
  else (decimalOf? negative body).map .decimal

theorem ofWord?_append {sign body : Text} {negative : Bool} (h : SignText sign negative)
    (hbody : ∀ c ∈ body.head?, c ≠ '+' ∧ c ≠ '-') :
    ofWord? (sign ++ body) = ofBody? negative body := by
  rw [ofWord?, splitSign_append h hbody]
  rfl

theorem exists_isFormOf_of_spells {body name : Text} {p : Char} (h : body.spells (p :: name)) :
    ∃ c rest, body = c :: rest ∧ Text.isFormOf c p := by
  rcases body with _ | ⟨c, rest⟩
  · cases h
  · exact ⟨c, rest, rfl, (Bool.and_eq_true_iff.mp h).1⟩

theorem not_spells_of_head {c p : Char} {rest name : Text} (h : Text.isFormOf c p = false) :
    Text.spells (c :: rest) (p :: name) = false := by
  rw [Text.spells, List.isEqv_cons_cons, h, Bool.false_and]

theorem not_spells_infinity {c : Char} {rest : Text} (h : Text.isFormOf c 'i' = false) :
    (Text.spells (c :: rest) "inf".toList || Text.spells (c :: rest) "infinity".toList) =
      false := by
  rw [Bool.or_eq_false_iff]
  exact ⟨not_spells_of_head h, not_spells_of_head h⟩

theorem ofWord?_of_infinity {sign body : Text} {negative : Bool} (hsign : SignText sign negative)
    (h : body.spells "inf".toList ∨ body.spells "infinity".toList) :
    ofWord? (sign ++ body) = some (.infinity negative) := by
  obtain ⟨c, rest, rfl, hc⟩ : ∃ c rest, body = c :: rest ∧ Text.isFormOf c 'i' :=
    h.elim exists_isFormOf_of_spells exists_isFormOf_of_spells
  have hhead : c ≠ '+' ∧ c ≠ '-' := by constructor <;> rintro rfl <;> simp [Text.isFormOf] at hc
  rw [ofWord?_append hsign (by simpa using hhead), ofBody?, if_pos]
  simpa using h

theorem ofWord?_of_nan {sign body : Text} {negative : Bool} (hsign : SignText sign negative)
    (h : body.spells "nan".toList) : ofWord? (sign ++ body) = some .nan := by
  obtain ⟨c, rest, rfl, hc⟩ : ∃ c rest, body = c :: rest ∧ Text.isFormOf c 'n' :=
    exists_isFormOf_of_spells h
  have hhead : c ≠ '+' ∧ c ≠ '-' := by constructor <;> rintro rfl <;> simp [Text.isFormOf] at hc
  have hi : Text.isFormOf c 'i' = false := by
    rw [← Bool.not_eq_true]
    intro hi
    have heq := Text.Matches.unique (by decide) (by decide) ((Text.isFormOf_iff rfl).mp hi)
      ((Text.isFormOf_iff rfl).mp hc)
    cases heq
  rw [ofWord?_append hsign (by simpa using hhead), ofBody?, not_spells_infinity hi,
    if_neg Bool.false_ne_true, if_pos h]

theorem ofWord?_of_decimal {sign body : Text} {w : WrittenDecimal}
    (hsign : SignText sign w.negative) (h : DecimalText body w) :
    ofWord? (sign ++ body) = some (.decimal w) := by
  obtain ⟨c, rest, rfl, hc⟩ := h.head
  have hplain :
      (c ≠ '+' ∧ c ≠ '-') ∧ Text.isFormOf c 'i' = false ∧ Text.isFormOf c 'n' = false := by
    rcases hc with hc | rfl
    · refine ⟨isDigit_ne_sign hc, ?_, ?_⟩ <;>
        refine Text.isFormOf_eq_false (Text.plain_of_isDigit hc) (by decide) ?_ <;>
          rintro rfl <;> simp at hc
    · decide
  obtain ⟨hhead, hi, hn⟩ := hplain
  have hnan : Text.spells (c :: rest) "nan".toList = false := not_spells_of_head hn
  rw [ofWord?_append hsign (by simpa using hhead), ofBody?, not_spells_infinity hi, hnan,
    decimalOf?_of_decimalText h]
  rfl

theorem literalText_of_ofWord? {word : Text} {l : Literal} (h : ofWord? word = some l) :
    LiteralText word l := by
  obtain ⟨sign, hsign, hword⟩ := exists_splitSign word
  have hread : ofBody? (splitSign word).1 (splitSign word).2 = some l := h
  generalize (splitSign word).1 = negative at hsign hread
  generalize (splitSign word).2 = body at hword hread
  subst hword
  unfold ofBody? at hread
  split_ifs at hread with hinf hnan
  · cases hread
    exact .infinity sign body negative hsign (by simpa using hinf)
  · cases hread
    exact .nan sign body negative hsign hnan
  · obtain ⟨w, hw, rfl⟩ := Option.map_eq_some_iff.mp hread
    obtain ⟨rfl, htext⟩ := decimalOf?_eq_some_iff.mp hw
    exact .decimal sign body w hsign htext

/-- A word is read as the literal that the whole of it writes, if it writes one. -/
theorem ofWord?_eq_some_iff {word : Text} {l : Literal} :
    ofWord? word = some l ↔ LiteralText word l := by
  refine ⟨literalText_of_ofWord?, fun h => ?_⟩
  cases h with
  | infinity sign body negative hsign h => exact ofWord?_of_infinity hsign h
  | nan sign body negative hsign h => exact ofWord?_of_nan hsign h
  | decimal sign body w hsign h => exact ofWord?_of_decimal hsign h

end Word

end Literal

end ReversePolish
