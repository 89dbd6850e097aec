import ReversePolish.Proofs.Literal.Rounding
import ReversePolish.Proofs.Token.Known

/-! The words without a token. There are two kinds: names of infinity with a letter that
passes for i where case does not count but is none, and decimals with a group of more
digits than are converted. The digits of a decimal are not looked at if double precision
cannot tell it from zero or puts it at `2 ^ 128` or beyond, so these are never too long. -/

namespace ReversePolish

open Binary
open Grammar (spelling literal mem_literal_matches)
open Literal (SignText DecimalText LiteralText)
open Text (IsPlainName IsCaseOf Matches)

namespace Token

/-- Why a word has no token. -/
inductive Unreadable (word : Text) : LiteralError → Prop
  /-- `İ` or `ı` stands for an i in a name of infinity. -/
  | foreign (sign body name : Text) (negative : Bool) (hword : word = sign ++ body)
    (hsign : SignText sign negative) (hname : name ∈ ["inf".toList, "infinity".toList])
    (hbody : body ∈ spelling Matches name) (hforeign : 'İ' ∈ body ∨ 'ı' ∈ body) :
    Unreadable word (.foreignLetters word)
  /-- The correctly rounded double is neither zero nor infinite nor as large as `2 ^ 128`,
  and `group` is the first of the groups of digits that is too long. -/
  | overlong (sign body : Text) (w : WrittenDecimal) (wide : Magnitude .double)
    (before after : List Text) (group : Text) (hword : word = sign ++ body)
    (hsign : SignText sign w.negative) (hbody : DecimalText body w)
    (hwide : wide.IsNearest w.toDecimal.toRat) (hfinite : wide ≠ .infinity)
    (hpos : 0 < wide.toRat) (hlt : wide.toRat < 2 ^ 128)
    (hgroups : [w.whole, w.fraction, w.exponent] = before ++ group :: after)
    (hbefore : ∀ g ∈ before, g.length ≤ 4300) (hgroup : 4300 < group.length) :
    Unreadable word (.tooManyDigits group.length)

end Token

section Converted

theorem Binary.Magnitude.ne_infinity_of_units_lt {m : Magnitude .double}
    (h : m.units < 2 ^ 128 * Format.double.one) : m ≠ .infinity := by
  rintro rfl
  revert h
  decide +kernel

/-- The digits are converted exactly if the correctly rounded double is in range. -/
theorem WrittenDecimal.isConverted_iff {w : WrittenDecimal} :
    w.isConverted ↔ ∃ wide : Magnitude .double, wide.IsNearest w.toDecimal.toRat ∧
      wide ≠ .infinity ∧ 0 < wide.toRat ∧ wide.toRat < 2 ^ 128 := by
  have hnearest : (w.toDecimal.nearest : Magnitude .double).IsNearest w.toDecimal.toRat :=
    w.toDecimal.isNearest_nearest (by decide)
  rw [isConverted_iff_lt]
  constructor
  · rintro ⟨hpos, hlt⟩
    have hfinite := Magnitude.ne_infinity_of_units_lt ((Magnitude.toRat_lt_pow_iff _).mp hlt)
    exact ⟨_, hnearest, hfinite, hpos, hlt⟩
  · rintro ⟨wide, hwide, -, hpos, hlt⟩
    rw [hnearest.unique hwide]
    exact ⟨hpos, hlt⟩

theorem WrittenDecimal.overlong_iff {s : Text} : overlong s ↔ 4300 < s.length := decide_eq_true_iff

/-- The first group that is too long is reported, if the digits are converted at all. -/
theorem WrittenDecimal.value_eq_error_iff {w : WrittenDecimal} {e : LiteralError} :
    w.value = .error e ↔ w.isConverted ∧
      ∃ before group after, [w.whole, w.fraction, w.exponent] = before ++ group :: after ∧
        (∀ g ∈ before, g.length ≤ 4300) ∧ 4300 < group.length ∧
          e = .tooManyDigits group.length := by
  have hfind : ∀ group, w.groups.find? overlong = some group ↔ 4300 < group.length ∧
      ∃ before after, [w.whole, w.fraction, w.exponent] = before ++ group :: after ∧
        ∀ g ∈ before, g.length ≤ 4300 := fun group => by
    rw [List.find?_eq_some_iff_append, overlong_iff]
    simp [← Bool.not_eq_true, overlong_iff, groups]
  constructor
  · intro h
    unfold value at h
    split at h
    · rename_i group hgroup hconverted
      cases h
      obtain ⟨hlong, before, after, hgroups, hbefore⟩ := (hfind group).mp hgroup
      exact ⟨hconverted, before, group, after, hgroups, hbefore, hlong, rfl⟩
    · cases h
  · rintro ⟨hconverted, before, group, after, hgroups, hbefore, hlong, rfl⟩
    rw [value, (hfind group).mpr ⟨hlong, before, after, hgroups, hbefore⟩, hconverted]

end Converted

theorem Grammar.exists_of_mem_spelling {form : Char → Char → Prop} {s name : Text}
    (h : s ∈ spelling form name) {c : Char} (hc : c ∈ s) : ∃ p ∈ name, form c p := by
  induction h with
  | nil => cases hc
  | cons hform hrest ih =>
    rcases List.mem_cons.mp hc with rfl | hc
    · exact ⟨_, List.mem_cons_self, hform⟩
    · obtain ⟨p, hp, hform⟩ := ih hc
      exact ⟨p, List.mem_cons_of_mem _ hp, hform⟩

namespace Token

variable {word sign body name : Text} {negative : Bool} {e : LiteralError}

section Letters

theorem literalNames_ascii : ∀ name ∈ literalNames, ∀ p ∈ name,
    p ≠ 's' ∧ p.toNat < 128 ∧ p.toUpper.toNat < 128 := by
  have hall : ∀ name ∈ literalNames,
      name.all fun p => p ≠ 's' ∧ p.toNat < 128 ∧ p.toUpper.toNat < 128 := by decide
  exact fun name hname p hp => of_decide_eq_true (List.all_eq_true.mp (hall name hname) p hp)

theorem isAscii_of_isCaseOf {c p : Char} (h : IsCaseOf c p)
    (hp : p.toNat < 128 ∧ p.toUpper.toNat < 128) : c.toNat < 128 := by
  rcases h with rfl | rfl
  · exact hp.1
  · exact hp.2

/-- In the name of a literal only the two letters that pass for i can be outside of ASCII. -/
theorem eq_foreign_of_mem_spelling (hname : name ∈ literalNames)
    (h : body ∈ spelling Matches name) {c : Char} (hc : c ∈ body) (hascii : ¬c.toNat < 128) :
    c = 'İ' ∨ c = 'ı' := by
  obtain ⟨p, hp, hmatch⟩ := Grammar.exists_of_mem_spelling h hc
  obtain ⟨hs, hbound⟩ := literalNames_ascii name hname p hp
  rcases hmatch with hcase | ⟨-, hforeign⟩ | ⟨rfl, -⟩
  · exact absurd (isAscii_of_isCaseOf hcase hbound) hascii
  · exact hforeign
  · exact absurd rfl hs

theorem isAscii_sign (h : SignText sign negative) : ∀ c ∈ sign, c.toNat < 128 := by
  have hall : sign.all (·.toNat < 128) := by cases h <;> rfl
  exact fun c hc => of_decide_eq_true (List.all_eq_true.mp hall c hc)

theorem isAscii_of_mem_literal (h : word ∈ literal IsCaseOf) : ∀ c ∈ word, c.toNat < 128 := by
  have hspelling : ∀ {name body : Text}, name ∈ literalNames → body ∈ spelling IsCaseOf name →
      ∀ c ∈ body, c.toNat < 128 := by
    intro name body hname hbody c hc
    obtain ⟨p, hp, hcase⟩ := Grammar.exists_of_mem_spelling hbody hc
    exact isAscii_of_isCaseOf hcase (literalNames_ascii name hname p hp).2
  have hdecimal : ∀ {body : Text}, body ∈ Grammar.decimal → ∀ c ∈ body, c.toNat < 128 := by
    intro body hbody c hc
    obtain ⟨w, -, hw⟩ := (Grammar.mem_decimal false).mp hbody
    have hmarks : Literal.decimalMarks.all (·.toNat < 128) := by decide
    rcases hw.mem hc with hdigit | hmark
    · exact (Text.plain_of_isDigit hdigit).1
    · exact of_decide_eq_true (List.all_eq_true.mp hmarks c hmark)
  obtain ⟨sign, hsign, body, hbody, rfl⟩ := h
  obtain ⟨negative, hsign⟩ := Grammar.mem_sign.mp hsign
  refine List.forall_mem_append.mpr ⟨isAscii_sign hsign, ?_⟩
  rcases hbody with ((hbody | hbody) | hbody) | hbody
  · exact hspelling (by decide) hbody
  · exact hspelling (by decide) hbody
  · exact hspelling (by decide) hbody
  · exact hdecimal hbody

end Letters

theorem infinityNames_subset : ["inf".toList, "infinity".toList] ⊆ literalNames := by decide

theorem value_infinity_eq_error_iff (hsign : SignText sign negative)
    (hname : name ∈ ["inf".toList, "infinity".toList]) (hbody : body ∈ spelling Matches name) :
    (Literal.infinity negative).value (sign ++ body) = .error e ↔
      e = .foreignLetters (sign ++ body) ∧ ('İ' ∈ body ∨ 'ı' ∈ body) := by
  have hascii : (sign ++ body).isAscii ↔ ¬('İ' ∈ body ∨ 'ı' ∈ body) := by
    rw [Text.isAscii, List.all_eq_true]
    constructor
    · rintro hall (hc | hc)
      · exact absurd (hall _ (List.mem_append_right _ hc)) (by decide)
      · exact absurd (hall _ (List.mem_append_right _ hc)) (by decide)
    · intro hnone c hc
      rw [decide_eq_true_eq]
      rcases List.mem_append.mp hc with hc | hc
      · exact isAscii_sign hsign c hc
      · by_contra hlarge
        rcases eq_foreign_of_mem_spelling (infinityNames_subset hname) hbody hc hlarge with
          rfl | rfl
        · exact hnone (.inl hc)
        · exact hnone (.inr hc)
  unfold Literal.value
  by_cases h : 'İ' ∈ body ∨ 'ı' ∈ body
  · have hfalse : (sign ++ body).isAscii = false := by simpa [h] using hascii
    simp [hfalse, h, eq_comm]
  · have htrue : (sign ++ body).isAscii = true := hascii.mpr h
    simp [htrue, h]

theorem unreadable_of_error (h : ofWord word = .error e) : Unreadable word e := by
  obtain ⟨l, hl⟩ := mem_literal_matches.mp (literal_of_error h)
  have hvalue : l.value word = .error e := by
    rw [ofWord_of_literal hl] at h
    cases hv : l.value word <;> rw [hv] at h <;> cases h
    rfl
  cases hl with
  | infinity sign body negative hsign hbody =>
    obtain ⟨name, hname, hbody⟩ : ∃ name ∈ ["inf".toList, "infinity".toList],
        body ∈ spelling Matches name := by
      rcases hbody with hbody | hbody
      · exact ⟨_, by decide, (Grammar.mem_spelling_matches (by decide)).mpr hbody⟩
      · exact ⟨_, by decide, (Grammar.mem_spelling_matches (by decide)).mpr hbody⟩
    obtain ⟨rfl, hforeign⟩ := (value_infinity_eq_error_iff hsign hname hbody).mp hvalue
    exact .foreign sign body name negative rfl hsign hname hbody hforeign
  | nan sign body negative hsign hbody => cases hvalue
  | decimal sign body w hsign hbody =>
    obtain ⟨hconverted, before, group, after, hgroups, hbefore, hgroup, rfl⟩ :=
      WrittenDecimal.value_eq_error_iff.mp hvalue
    obtain ⟨wide, hwide, hfinite, hpos, hlt⟩ := WrittenDecimal.isConverted_iff.mp hconverted
    exact .overlong sign body w wide before after group rfl hsign hbody hwide hfinite hpos hlt
      hgroups hbefore hgroup

theorem error_of_literal {l : Literal} (hl : LiteralText word l) (h : l.value word = .error e) :
    ofWord word = .error e := by
  rw [ofWord_of_literal hl, h]
  rfl

theorem error_of_unreadable (h : Unreadable word e) : ofWord word = .error e := by
  cases h with
  | foreign sign body name negative hword hsign hname hbody hforeign =>
    subst hword
    have hspells : body.spells "inf".toList ∨ body.spells "infinity".toList := by
      simp only [List.mem_cons, List.not_mem_nil, or_false] at hname
      rcases hname with rfl | rfl
      · exact .inl ((Grammar.mem_spelling_matches (by decide)).mp hbody)
      · exact .inr ((Grammar.mem_spelling_matches (by decide)).mp hbody)
    refine error_of_literal (.infinity sign body negative hsign hspells) ?_
    exact (value_infinity_eq_error_iff hsign hname hbody).mpr ⟨rfl, hforeign⟩
  | overlong sign body w wide before after group hword hsign hbody hwide hfinite hpos hlt
      hgroups hbefore hgroup =>
    subst hword
    refine error_of_literal (.decimal sign body w hsign hbody) ?_
    exact WrittenDecimal.value_eq_error_iff.mpr
      ⟨WrittenDecimal.isConverted_iff.mpr ⟨wide, hwide, hfinite, hpos, hlt⟩, before, group, after,
        hgroups, hbefore, hgroup, rfl⟩

/-- A word with foreign letters would be a literal if those letters were an i. -/
theorem unreadable_foreignLetters_iff : Unreadable word (.foreignLetters word) ↔
    word ∈ literal Matches ∧ word ∉ literal IsCaseOf := by
  constructor
  · intro h
    refine ⟨literal_of_error (error_of_unreadable h), fun hliteral => ?_⟩
    have hascii := isAscii_of_mem_literal hliteral
    cases h with
    | foreign sign body name negative hword hsign hname hbody hforeign =>
      subst hword
      rcases hforeign with hc | hc
      · exact absurd (hascii _ (List.mem_append_right _ hc)) (by decide)
      · exact absurd (hascii _ (List.mem_append_right _ hc)) (by decide)
  · rintro ⟨hmatches, hcase⟩
    obtain ⟨l, hl⟩ := mem_literal_matches.mp hmatches
    cases hvalue : l.value word with
    | ok v => exact absurd (Grammar.mem_literal_of_value hl hvalue) hcase
    | error e =>
      have h := unreadable_of_error (error_of_literal hl hvalue)
      cases h with
      | foreign sign body name negative hword hsign hname hbody hforeign =>
        exact .foreign sign body name negative hword hsign hname hbody hforeign
      | overlong sign body w wide before after group hword hsign hbody =>
        refine absurd ⟨sign, Grammar.mem_sign.mpr ⟨_, hsign⟩, body, .inr ?_, hword.symm⟩ hcase
        exact (Grammar.mem_decimal _).mpr ⟨w, rfl, hbody⟩

/-- A word has no token exactly if it is unreadable, and its error is then the only one for
which it is. Foreign letters are all that keeps a word of the first kind from the grammar. -/
theorem ofWord_eq_error_iff_unreadable (word : Text) :
    (∀ e, ofWord word = .error e ↔ Unreadable word e) ∧
      ((∃ token, ofWord word = .ok token) ↔ ∀ e, ¬Unreadable word e) ∧
      (Unreadable word (.foreignLetters word) ↔
        word ∈ literal Matches ∧ word ∉ literal IsCaseOf) := by
  refine ⟨fun e => ⟨unreadable_of_error, error_of_unreadable⟩, ?_, unreadable_foreignLetters_iff⟩
  constructor
  · rintro ⟨token, htoken⟩ e he
    rw [error_of_unreadable he] at htoken
    cases htoken
  · intro hnone
    cases hword : ofWord word with
    | ok token => exact ⟨token, rfl⟩
    | error e => exact absurd (unreadable_of_error hword) (hnone e)

example : ofWord "ınf".toList = .error (.foreignLetters "ınf".toList) := rfl

end Token

end ReversePolish
