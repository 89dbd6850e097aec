import ReversePolish.Proofs.Literal.Reader
import Mathlib.Computability.Language

/-! The grammar of literals as a language, built from unions and products of smaller
ones with no regard to how a word is read. Letters are compared by a relation that is
left open, for letters of either case or for all that passes for them. With the wider of
the two, the words of the grammar are those that the reader takes. -/

namespace ReversePolish.Grammar

open Computability
open Literal (SignText FractionText ExponentText DecimalText LiteralText)
open Text (Digits IsCaseOf Matches)

def digit : Language Char := {s | ∃ c, '0' ≤ c ∧ c ≤ '9' ∧ s = [c]}

def digits : Language Char := digit * digit∗

def sign : Language Char := 1 + ({['+']} + {['-']})

/-- Digits with an optional point among or behind them, or a point before them. -/
def mantissa : Language Char := digits * (1 + {['.']} * digit∗) + {['.']} * digits

def power : Language Char := ({['e']} + {['E']}) * (sign * digits)

def decimal : Language Char := mantissa * (1 + power)

/-- The words that write the name in letters of the given forms. -/
def spelling (form : Char → Char → Prop) (name : Text) : Language Char :=
  {s | List.Forall₂ form s name}

def literal (form : Char → Char → Prop) : Language Char :=
  sign * (spelling form "inf".toList + spelling form "infinity".toList +
    spelling form "nan".toList + decimal)

variable {s word name : Text} {form : Char → Char → Prop}

theorem isDigit_iff {c : Char} : c.isDigit ↔ '0' ≤ c ∧ c ≤ '9' := by
  simp [Char.isDigit, Char.le_def]

theorem mem_star_digit : s ∈ digit∗ ↔ Digits s := by
  rw [Language.mem_kstar]
  constructor
  · rintro ⟨pieces, rfl, hpieces⟩ c hc
    obtain ⟨piece, hpiece, hc⟩ := List.mem_flatten.mp hc
    obtain ⟨d, hlow, hhigh, rfl⟩ := hpieces piece hpiece
    rw [List.mem_singleton.mp hc, isDigit_iff]
    exact ⟨hlow, hhigh⟩
  · intro hs
    refine ⟨s.map fun c => [c], ?_, ?_⟩
    · simp [← List.flatMap_def]
    · intro piece hpiece
      obtain ⟨c, hc, rfl⟩ := List.mem_map.mp hpiece
      exact ⟨c, (isDigit_iff.mp (hs c hc)).1, (isDigit_iff.mp (hs c hc)).2, rfl⟩

theorem mem_digits : s ∈ digits ↔ s ≠ [] ∧ Digits s := by
  rw [digits, Language.mem_mul]
  constructor
  · rintro ⟨-, ⟨c, hlow, hhigh, rfl⟩, rest, hrest, rfl⟩
    refine ⟨List.cons_ne_nil _ _, List.forall_mem_cons.mpr ⟨?_, mem_star_digit.mp hrest⟩⟩
    exact isDigit_iff.mpr ⟨hlow, hhigh⟩
  · rintro ⟨hne, hs⟩
    obtain ⟨c, rest, rfl⟩ := List.exists_cons_of_ne_nil hne
    obtain ⟨hc, hrest⟩ := List.forall_mem_cons.mp hs
    exact ⟨[c], ⟨c, (isDigit_iff.mp hc).1, (isDigit_iff.mp hc).2, rfl⟩, rest,
      mem_star_digit.mpr hrest, rfl⟩

theorem mem_sign : s ∈ sign ↔ ∃ negative, SignText s negative := by
  simp only [sign, Language.mem_add, Language.mem_one]
  constructor
  · rintro (rfl | rfl | rfl)
    · exact ⟨false, .none⟩
    · exact ⟨false, .plus⟩
    · exact ⟨true, .minus⟩
  · rintro ⟨negative, h⟩
    cases h with
    | none => exact .inl rfl
    | plus => exact .inr (.inl rfl)
    | minus => exact .inr (.inr rfl)

theorem mem_point_mul {l : Language Char} : s ∈ {['.']} * l ↔ ∃ rest ∈ l, s = '.' :: rest := by
  rw [Language.mem_mul]
  constructor
  · rintro ⟨-, rfl, rest, hrest, rfl⟩
    exact ⟨rest, hrest, rfl⟩
  · rintro ⟨rest, hrest, rfl⟩
    exact ⟨['.'], rfl, rest, hrest, rfl⟩

theorem mem_fraction : s ∈ 1 + {['.']} * digit∗ ↔ ∃ fraction, FractionText s fraction := by
  rw [Language.mem_add, Language.mem_one, mem_point_mul]
  constructor
  · rintro (rfl | ⟨rest, hrest, rfl⟩)
    · exact ⟨[], .none⟩
    · exact ⟨rest, .point rest (mem_star_digit.mp hrest)⟩
  · rintro ⟨fraction, h⟩
    cases h with
    | none => exact .inl rfl
    | point _ h => exact .inr ⟨_, mem_star_digit.mpr h, rfl⟩

theorem mem_power : s ∈ 1 + power ↔ ∃ negative exponent, ExponentText s negative exponent := by
  simp only [power, Language.mem_add, Language.mem_one, Language.mem_mul]
  constructor
  · rintro (rfl | ⟨mark, hmark, -, ⟨sign, hsign, rest, hrest, rfl⟩, rfl⟩)
    · exact ⟨false, [], .none⟩
    · obtain ⟨negative, hsign⟩ := mem_sign.mp hsign
      obtain ⟨hne, hrest⟩ := mem_digits.mp hrest
      obtain ⟨c, hc, rfl⟩ : ∃ c, (c = 'e' ∨ c = 'E') ∧ mark = [c] :=
        hmark.elim (fun h => ⟨'e', .inl rfl, h⟩) fun h => ⟨'E', .inr rfl, h⟩
      exact ⟨negative, rest, .power c hc sign rest negative hsign hne hrest⟩
  · rintro ⟨negative, exponent, h⟩
    cases h with
    | none => exact .inl rfl
    | power c hc sign _ _ hsign hne hrest =>
      refine .inr ⟨[c], ?_, _, ⟨sign, mem_sign.mpr ⟨_, hsign⟩, _, mem_digits.mpr ⟨hne, hrest⟩,
        rfl⟩, rfl⟩
      rcases hc with rfl | rfl
      · exact .inl rfl
      · exact .inr rfl

/-- The texts of digits and a point are those with a digit before or after the point. -/
theorem mem_mantissa : s ∈ mantissa ↔
    ∃ whole middle fraction, s = whole ++ middle ∧ Digits whole ∧ FractionText middle fraction ∧
      (whole ≠ [] ∨ fraction ≠ []) := by
  rw [mantissa, Language.mem_add, Language.mem_mul, mem_point_mul]
  constructor
  · rintro (⟨whole, hwhole, middle, hmiddle, rfl⟩ | ⟨rest, hrest, rfl⟩)
    · obtain ⟨hne, hwhole⟩ := mem_digits.mp hwhole
      obtain ⟨fraction, hfraction⟩ := mem_fraction.mp hmiddle
      exact ⟨whole, middle, fraction, rfl, hwhole, hfraction, .inl hne⟩
    · obtain ⟨hne, hrest⟩ := mem_digits.mp hrest
      exact ⟨[], '.' :: rest, rest, rfl, by simp [Digits], .point rest hrest, .inr hne⟩
  · rintro ⟨whole, middle, fraction, rfl, hwhole, hfraction, hne⟩
    by_cases hempty : whole = []
    · subst hempty
      cases hfraction with
      | none => simp at hne
      | point _ h =>
        exact .inr ⟨_, mem_digits.mpr ⟨hne.resolve_left (· rfl), h⟩, rfl⟩
    · exact .inl ⟨whole, mem_digits.mpr ⟨hempty, hwhole⟩, middle,
        mem_fraction.mpr ⟨fraction, hfraction⟩, rfl⟩

theorem mem_decimal (negative : Bool) :
    s ∈ decimal ↔ ∃ w : WrittenDecimal, w.negative = negative ∧ DecimalText s w := by
  rw [decimal, Language.mem_mul]
  constructor
  · rintro ⟨front, hfront, tail, htail, rfl⟩
    obtain ⟨whole, middle, fraction, rfl, hwhole, hfraction, hne⟩ := mem_mantissa.mp hfront
    obtain ⟨exponentNegative, exponent, hexponent⟩ := mem_power.mp htail
    exact ⟨⟨negative, whole, fraction, exponentNegative, exponent⟩, rfl, middle, tail,
      List.append_assoc .., hwhole, hfraction, hexponent, hne⟩
  · rintro ⟨w, -, middle, tail, rfl, hwhole, hfraction, hexponent, hne⟩
    exact ⟨w.whole ++ middle, mem_mantissa.mpr ⟨_, _, _, rfl, hwhole, hfraction, hne⟩, tail,
      mem_power.mpr ⟨_, _, hexponent⟩, List.append_assoc ..⟩

theorem mem_spelling_matches (hname : Text.IsPlainName name) :
    s ∈ spelling Matches name ↔ s.spells name := (Text.spells_iff hname).symm

/-- The words of the grammar are those that the reader takes. -/
theorem mem_literal_matches : word ∈ literal Matches ↔ ∃ l, LiteralText word l := by
  have hinf : Text.IsPlainName "inf".toList := by decide
  have hinfinity : Text.IsPlainName "infinity".toList := by decide
  have hnan : Text.IsPlainName "nan".toList := by decide
  simp only [literal, Language.mem_mul, Language.mem_add, mem_spelling_matches hinf,
    mem_spelling_matches hinfinity, mem_spelling_matches hnan]
  constructor
  · rintro ⟨sign, hsign, body, hbody, rfl⟩
    obtain ⟨negative, hsign⟩ := mem_sign.mp hsign
    rcases hbody with (hbody | hbody) | hbody
    · exact ⟨_, .infinity sign body negative hsign hbody⟩
    · exact ⟨_, .nan sign body negative hsign hbody⟩
    · obtain ⟨w, rfl, hw⟩ := (mem_decimal negative).mp hbody
      exact ⟨_, .decimal sign body w hsign hw⟩
  · rintro ⟨l, h⟩
    cases h with
    | infinity sign body negative hsign h =>
      exact ⟨sign, mem_sign.mpr ⟨_, hsign⟩, body, .inl (.inl h), rfl⟩
    | nan sign body negative hsign h =>
      exact ⟨sign, mem_sign.mpr ⟨_, hsign⟩, body, .inl (.inr h), rfl⟩
    | decimal sign body w hsign h =>
      exact ⟨sign, mem_sign.mpr ⟨_, hsign⟩, body, .inr ((mem_decimal _).mpr ⟨w, rfl, h⟩), rfl⟩

theorem spelling_isCaseOf (h : word ∈ spelling Matches name)
    (hcase : ∀ c ∈ word, ∀ p ∈ name, Matches c p → IsCaseOf c p) :
    word ∈ spelling IsCaseOf name := by
  induction h with
  | nil => exact .nil
  | cons hc _ ih =>
    refine .cons (hcase _ List.mem_cons_self _ List.mem_cons_self hc) (ih fun c hc p hp => ?_)
    exact hcase c (List.mem_cons_of_mem _ hc) p (List.mem_cons_of_mem _ hp)

/-- A literal that has a value is written in letters of either case, and no others. -/
theorem mem_literal_of_value {l : Literal} {v : Binary32} (hl : LiteralText word l)
    (hv : l.value word = .ok v) : word ∈ literal IsCaseOf := by
  cases hl with
  | infinity sign body negative hsign h =>
    have hascii : Text.isAscii (sign ++ body) := by
      by_contra hforeign
      simp [Literal.value, hforeign] at hv
    have hchars : ∀ c ∈ sign ++ body, c.toNat < 128 := by
      simpa only [Text.isAscii, List.all_eq_true, decide_eq_true_eq] using hascii
    have hcase : ∀ c ∈ body, ∀ p, Matches c p → IsCaseOf c p := fun c hc p hp =>
      Text.isCaseOf_of_matches hp (hchars c (List.mem_append_right _ hc))
    have hname : ∀ name, Text.IsPlainName name → body.spells name →
        body ∈ spelling IsCaseOf name := by
      intro name hplain h
      exact spelling_isCaseOf ((mem_spelling_matches hplain).mpr h) fun c hc p _ => hcase c hc p
    refine ⟨sign, mem_sign.mpr ⟨_, hsign⟩, body, .inl (.inl ?_), rfl⟩
    exact h.imp (hname _ (by decide)) (hname _ (by decide))
  | nan sign body negative hsign h =>
    refine ⟨sign, mem_sign.mpr ⟨_, hsign⟩, body, .inl (.inr ?_), rfl⟩
    refine spelling_isCaseOf ((mem_spelling_matches (by decide)).mpr h) fun c _ p hp hm => ?_
    have hname : ∀ p ∈ "nan".toList, p ≠ 'i' ∧ p ≠ 's' := by simp
    exact Text.isCaseOf_of_matches_of_ne hm (hname p hp)
  | decimal sign body w hsign h =>
    exact ⟨sign, mem_sign.mpr ⟨_, hsign⟩, body, .inr ((mem_decimal _).mpr ⟨w, rfl, h⟩), rfl⟩

theorem spelling_mono {form' : Char → Char → Prop} (h : ∀ c p, form c p → form' c p)
    (hs : s ∈ spelling form name) : s ∈ spelling form' name := List.Forall₂.imp h hs

theorem literal_mono {form' : Char → Char → Prop} (h : ∀ c p, form c p → form' c p)
    (hword : word ∈ literal form) : word ∈ literal form' := by
  obtain ⟨sign, hsign, body, hbody, rfl⟩ := hword
  refine ⟨sign, hsign, body, ?_, rfl⟩
  rcases hbody with ((hbody | hbody) | hbody) | hbody
  · exact .inl (.inl (.inl (spelling_mono h hbody)))
  · exact .inl (.inl (.inr (spelling_mono h hbody)))
  · exact .inl (.inr (spelling_mono h hbody))
  · exact .inr hbody

end ReversePolish.Grammar
