import ReversePolish.Proofs.Binary.Pattern
import ReversePolish.Proofs.Display.Shortest
import ReversePolish.Proofs.Literal.Grammar

/-! The one text that a number is written with. Its whole part has no zero before other digits,
and its fraction, if there is one, ends with a digit other than zero. Each of the three ways to
put the point among the digits ends up in this form, because the digits themselves neither begin
nor end with a zero. -/

namespace ReversePolish

open Binary
open Text (Digits)

/-- No power of ten, no blank, no point at the end, and no zero that only fills a place before
the other digits or behind them. -/
structure Text.IsBare (text sign : Text) : Prop where
  no_exponent : 'e' ∉ text ∧ 'E' ∉ text
  no_blank (c : Char) (hc : c ∈ text) : Text.isBlankChar c = false
  no_last_point : text.getLast? ≠ some '.'
  no_first_zero (c : Char) (rest : Text) (h : text = sign ++ '0' :: c :: rest) : c = '.'
  no_last_zero (h : '.' ∈ text) : text.getLast? ≠ some '0'

namespace Grammar

open Computability

def nonzeroDigit : Language Char := {s | ∃ c, '1' ≤ c ∧ c ≤ '9' ∧ s = [c]}

/-- A single zero, or digits that do not begin with one. -/
def wholePart : Language Char := {['0']} + nonzeroDigit * digit∗

/-- Nothing, or a point and digits that do not end with a zero. -/
def fractionPart : Language Char := 1 + {['.']} * (digit∗ * nonzeroDigit)

/-- Numbers in positional form with nothing that could be left out. -/
def canonical (negative : Bool) : Language Char :=
  {writtenSign negative} * (wholePart * fractionPart)

variable {s : Text} {negative : Bool}

theorem mem_nonzeroDigit : s ∈ nonzeroDigit ↔ ∃ c : Char, c.isDigit ∧ c ≠ '0' ∧ s = [c] := by
  refine exists_congr fun c => ?_
  have hlow : '1' ≤ c ↔ '0' ≤ c ∧ c ≠ '0' := by
    rw [ne_eq, ← Char.toNat_inj, Char.le_def, Char.le_def, UInt32.le_iff_toNat_le,
      UInt32.le_iff_toNat_le]
    change 49 ≤ c.toNat ↔ 48 ≤ c.toNat ∧ ¬c.toNat = 48
    omega
  rw [hlow, isDigit_iff]
  tauto

theorem mem_leading : s ∈ nonzeroDigit * digit∗ ↔ Digits s ∧ ∃ c ∈ s.head?, c ≠ '0' := by
  rw [Language.mem_mul]
  constructor
  · rintro ⟨first, hfirst, rest, hrest, rfl⟩
    obtain ⟨c, hc, hne, rfl⟩ := mem_nonzeroDigit.mp hfirst
    exact ⟨List.forall_mem_cons.mpr ⟨hc, mem_star_digit.mp hrest⟩, c, rfl, hne⟩
  · rintro ⟨hdigits, c, hc, hne⟩
    obtain ⟨rest, rfl⟩ := List.head?_eq_some_iff.mp hc
    obtain ⟨hdigit, hrest⟩ := List.forall_mem_cons.mp hdigits
    exact ⟨[c], mem_nonzeroDigit.mpr ⟨c, hdigit, hne, rfl⟩, rest, mem_star_digit.mpr hrest, rfl⟩

theorem mem_trailing : s ∈ digit∗ * nonzeroDigit ↔ Digits s ∧ ∃ c ∈ s.getLast?, c ≠ '0' := by
  rw [Language.mem_mul]
  constructor
  · rintro ⟨front, hfront, last, hlast, rfl⟩
    obtain ⟨c, hc, hne, rfl⟩ := mem_nonzeroDigit.mp hlast
    refine ⟨List.forall_mem_append.mpr ⟨mem_star_digit.mp hfront, by simpa using hc⟩, c, ?_, hne⟩
    rw [List.getLast?_concat]
    rfl
  · rintro ⟨hdigits, c, hc, hne⟩
    obtain ⟨front, rfl⟩ := List.getLast?_eq_some_iff.mp hc
    obtain ⟨hfront, hdigit⟩ := List.forall_mem_append.mp hdigits
    exact ⟨front, mem_star_digit.mpr hfront, [c],
      mem_nonzeroDigit.mpr ⟨c, hdigit c (List.mem_singleton_self c), hne, rfl⟩, rfl⟩

/-- The parts of a text in the form, the digits of each part without the zeros that fill. -/
theorem mem_canonical_cases (h : s ∈ canonical negative) :
    ∃ whole fraction, s = writtenSign negative ++ (whole ++ fraction) ∧
      Digits whole ∧ (whole = ['0'] ∨ ∃ c ∈ whole.head?, c ≠ '0') ∧
      (fraction = [] ∨ ∃ rest, fraction = '.' :: rest ∧ Digits rest ∧
        ∃ c ∈ rest.getLast?, c ≠ '0') := by
  obtain ⟨-, rfl, -, ⟨whole, hwhole, fraction, hfraction, rfl⟩, rfl⟩ := h
  refine ⟨whole, fraction, rfl, ?_, hwhole.imp_right fun h => (mem_leading.mp h).2,
    hfraction.imp_right fun h => ?_⟩
  · rcases hwhole with rfl | h
    · exact Decimal.digits_replicate_zero 1
    · exact (mem_leading.mp h).1
  · obtain ⟨rest, hrest, rfl⟩ := mem_point_mul.mp h
    exact ⟨rest, rfl, mem_trailing.mp hrest⟩

theorem mem_of_mem_canonical (h : s ∈ canonical negative) {c : Char} (hc : c ∈ s) :
    c.isDigit ∨ c = '-' ∨ c = '.' := by
  obtain ⟨whole, fraction, rfl, hwhole, -, hfraction⟩ := mem_canonical_cases h
  rcases List.mem_append.mp hc with hc | hc
  · have hsign : writtenSign negative ⊆ ['-'] := by cases negative <;> simp [writtenSign]
    exact .inr (.inl (List.mem_singleton.mp (hsign hc)))
  · rcases List.mem_append.mp hc with hc | hc
    · exact .inl (hwhole c hc)
    · rcases hfraction with rfl | ⟨rest, rfl, hrest, -⟩
      · cases hc
      · exact (List.mem_cons.mp hc).elim (fun h => .inr (.inr h)) fun h => .inl (hrest c h)

/-- The last character is a digit, and behind a point it is not zero. -/
theorem getLast?_of_mem_canonical (h : s ∈ canonical negative) :
    ∃ c ∈ s.getLast?, c.isDigit ∧ ('.' ∈ s → c ≠ '0') := by
  obtain ⟨whole, fraction, rfl, hdigits, hwhole, hfraction⟩ := mem_canonical_cases h
  rcases hfraction with rfl | ⟨rest, rfl, hrest, c, hc, hne⟩
  · have hwholene : whole ≠ [] := by
      rcases hwhole with rfl | ⟨c, hc, -⟩
      · exact List.cons_ne_nil _ _
      · rintro rfl
        cases hc
    have hpoint : '.' ∉ writtenSign negative ++ (whole ++ []) := by
      rw [List.append_nil, List.mem_append, not_or]
      exact ⟨by cases negative <;> simp [writtenSign], fun h => absurd (hdigits _ h) (by decide)⟩
    refine ⟨whole.getLast hwholene, ?_, hdigits _ (List.getLast_mem hwholene), fun h =>
      absurd h hpoint⟩
    rw [List.append_nil, List.getLast?_append, List.getLast?_eq_some_getLast hwholene]
    rfl
  · refine ⟨c, ?_, hrest c (List.mem_of_getLast? hc), fun _ => hne⟩
    rw [List.getLast?_append, List.getLast?_append, List.getLast?_cons, hc]
    rfl

theorem isBlankChar_of_isDigit {c : Char} (h : c.isDigit) : Text.isBlankChar c = false := by
  obtain ⟨hlow, hhigh⟩ := isDigit_iff.mp h
  rw [Char.le_def, UInt32.le_iff_toNat_le] at hlow hhigh
  change 48 ≤ c.toNat at hlow
  change c.toNat ≤ 57 at hhigh
  simp only [Text.isBlankChar, Bool.or_eq_false_iff, Bool.and_eq_false_iff, decide_eq_false_iff_not,
    beq_eq_false_iff_ne]
  omega

/-- What is in the form has nothing that could be left out. -/
theorem isBare_of_mem_canonical (h : s ∈ canonical negative) :
    Text.IsBare s (writtenSign negative) := by
  obtain ⟨last, hlast, hdigit, hpoint⟩ := getLast?_of_mem_canonical h
  constructor
  case no_exponent =>
    exact ⟨fun hc => absurd (mem_of_mem_canonical h hc) (by decide),
      fun hc => absurd (mem_of_mem_canonical h hc) (by decide)⟩
  case no_blank =>
    intro c hc
    rcases mem_of_mem_canonical h hc with hc | rfl | rfl
    · exact isBlankChar_of_isDigit hc
    · rfl
    · rfl
  case no_last_point =>
    rw [hlast]
    rintro ⟨rfl⟩
    exact absurd hdigit (by decide)
  case no_first_zero =>
    intro c rest heq
    obtain ⟨whole, fraction, rfl, -, hwhole, hfraction⟩ := mem_canonical_cases h
    have hparts := List.append_cancel_left heq
    rcases hwhole with rfl | ⟨first, hfirst, hne⟩
    · rcases hfraction with rfl | ⟨digits, rfl, -⟩
      · cases hparts
      · cases hparts
        rfl
    · obtain ⟨tail, rfl⟩ := List.head?_eq_some_iff.mp hfirst
      exact absurd (List.cons.inj hparts).1 hne
  case no_last_zero =>
    intro h
    rw [hlast]
    exact fun heq => hpoint h (Option.some.inj heq)

end Grammar

namespace Decimal

open Grammar

theorem head?_digits {d : Decimal} (hd : d.coefficient ≠ 0) : ∃ c ∈ d.digits.head?, c ≠ '0' := by
  obtain ⟨first, rest, hdigits, hfirst⟩ := exists_digits_cons hd
  exact ⟨first, by rw [hdigits]; rfl, hfirst⟩

theorem getLast?_digits {d : Decimal} (hd : d.coefficient ≠ 0) :
    ∃ c ∈ d.digits.getLast?, c ≠ '0' := by
  obtain ⟨first, rest, hdigits, -⟩ := exists_digits_cons hd
  have hne : d.digits ≠ [] := by simp [hdigits]
  have hlast : ¬(d.digits.getLast hne == '0') = true := List.rdropWhile_last_not (· == '0') _ hne
  exact ⟨d.digits.getLast hne, List.getLast?_eq_some_getLast hne, by simpa using hlast⟩

/-- The point is among the digits or beside zeros that reach up to it, so nothing can be left
out. -/
theorem positional_mem_canonical {d : Decimal} (hd : d.coefficient ≠ 0) :
    d.positional [] ∈ wholePart * fractionPart := by
  have hdigits := d.digits_digits
  obtain ⟨first, hfirst, hfirst0⟩ := head?_digits hd
  obtain ⟨last, hlast, hlast0⟩ := getLast?_digits hd
  simp only [positional]
  split_ifs with hpoint hlength
  · refine ⟨['0'], .inl rfl, _, .inr (mem_point_mul.mpr ⟨_, mem_trailing.mpr ⟨?_, last, ?_, hlast0⟩,
      rfl⟩), rfl⟩
    · exact List.forall_mem_append.mpr ⟨digits_replicate_zero _, hdigits⟩
    · rw [List.getLast?_append, hlast]
      rfl
  · refine ⟨_, .inr (mem_leading.mpr ⟨?_, first, ?_, hfirst0⟩), [], .inl rfl, rfl⟩
    · exact List.forall_mem_append.mpr ⟨hdigits, digits_replicate_zero _⟩
    · rw [List.head?_append, hfirst]
      rfl
  · refine ⟨_, .inr (mem_leading.mpr ⟨?_, first, ?_, hfirst0⟩), _,
      .inr (mem_point_mul.mpr ⟨_, mem_trailing.mpr ⟨?_, last, ?_, hlast0⟩, rfl⟩), rfl⟩
    · exact fun c hc => hdigits c (List.mem_of_mem_take hc)
    · rw [List.head?_take, if_neg (by omega)]
      exact hfirst
    · exact fun c hc => hdigits c (List.mem_of_mem_drop hc)
    · rw [List.getLast?_drop, if_neg (by omega)]
      exact hlast

end Decimal

section Pattern

open Binary32

/-- The text of a pattern by its fields. -/
structure Binary32.IsTextOf (text : Text) (b : BitVec 32) : Prop where
  nan (h : IsNaNPattern b) : text = "NaN".toList
  infinite (h : IsInfinitePattern b) : text = writtenSign b.msb ++ "inf".toList
  finite (h : IsFinitePattern b) : text ∈ Grammar.canonical b.msb
  zero (h : IsZeroPattern b) : text = writtenSign b.msb ++ ['0']
  bare : text.IsBare (writtenSign b.msb)

variable {b b' : BitVec 32} {m : Magnitude .single}

theorem NumberStyle.plain_write_mem_canonical (negative : Bool) (hfinite : m.isInfinite = false) :
    plain.write (.signed negative m) ∈ Grammar.canonical negative := by
  rw [write_signed]
  refine ⟨_, rfl, _, ?_, rfl⟩
  cases hzero : m.isZero with
  | false =>
    rw [magnitude_of_finite hfinite hzero]
    exact Decimal.positional_mem_canonical (Magnitude.coefficient_ne_zero hzero m.nearest_shortest)
  | true =>
    obtain rfl : m = .zero := Magnitude.ext (eq_of_beq hzero)
    exact ⟨['0'], .inl rfl, [], .inl rfl, rfl⟩

/-- The letters of what is no finite number are none of those that could be left out. -/
theorem isBare_of_subset {sign text : Text} (h : text ⊆ "-NaNinf".toList) : text.IsBare sign where
  no_exponent := ⟨fun hc => absurd (h hc) (by decide), fun hc => absurd (h hc) (by decide)⟩
  no_blank c hc := by
    have hletters : "-NaNinf".toList.all (!Text.isBlankChar ·) := rfl
    simpa using List.all_eq_true.mp hletters c (h hc)
  no_last_point hlast := absurd (h (List.mem_of_getLast? hlast)) (by decide)
  no_first_zero c rest heq := by
    have hzero : '0' ∈ text := heq ▸ List.mem_append_right _ List.mem_cons_self
    exact absurd (h hzero) (by decide)
  no_last_zero hpoint := absurd (h hpoint) (by decide)

theorem isTextOf_plain_write (b : BitVec 32) :
    IsTextOf (NumberStyle.plain.write (.ofBits b.toNat : Binary32)) b where
  nan h := by
    rw [ofBits_eq_nan_iff.mpr h]
    rfl
  infinite h := by
    rw [ofBits_of_isInfinitePattern h, BinaryFloat.infinity, NumberStyle.write_signed]
    rfl
  finite h := by
    obtain ⟨m, hm, hfinite⟩ := exists_of_isFinitePattern h
    rw [hm]
    exact NumberStyle.plain_write_mem_canonical b.msb hfinite
  zero h := by
    rw [ofBits_of_isZeroPattern h, BinaryFloat.zero, NumberStyle.write_signed]
    rfl
  bare := by
    rcases pattern_cases b with h | h | h
    · rw [ofBits_eq_nan_iff.mpr h]
      exact isBare_of_subset (by decide)
    · rw [ofBits_of_isInfinitePattern h]
      exact isBare_of_subset (by cases b.msb <;> decide)
    · obtain ⟨m, hm, hfinite⟩ := exists_of_isFinitePattern h
      rw [hm]
      exact Grammar.isBare_of_mem_canonical (NumberStyle.plain_write_mem_canonical b.msb hfinite)

/-- Every pattern is written in its one form, and two are written alike only if they are the same
or neither is a number. -/
theorem NumberStyle.plain_write_canonical (b : BitVec 32) :
    IsTextOf (plain.write (.ofBits b.toNat : Binary32)) b ∧
      ∀ b' : BitVec 32, plain.write (.ofBits b.toNat : Binary32) =
        plain.write (.ofBits b'.toNat : Binary32) ↔ b = b' ∨ IsNaNPattern b ∧ IsNaNPattern b' := by
  refine ⟨isTextOf_plain_write b, fun b' => ?_⟩
  rw [← ofBits_inj]
  exact ⟨plain_write_injective, congrArg plain.write⟩

end Pattern

end ReversePolish
