import ReversePolish.Proofs.Token.Classification

/-! The known words that start with a dash. The dash of subtraction stands alone; in a
literal it is the sign, and what follows starts with no other dash and holds, of the small
letters, only those of the names of literals and the mark of a power of ten. -/

namespace ReversePolish

open Grammar (spelling literal mem_literal_matches)
open Text (IsPlainName Matches)

/-- A character of a name is plain in the sense of `Text.IsPlainName`. -/
def Text.IsPlain (c : Char) : Prop := c.toNat < 128 ∧ c.isUpper = false

instance (c : Char) : Decidable (Text.IsPlain c) := inferInstanceAs (Decidable (_ ∧ _))

/-- A plain character of a word stands in every plain name that the word writes. -/
theorem Text.mem_of_forall₂_matches {word name : Text} (hname : IsPlainName name)
    (h : List.Forall₂ Matches word name) {c : Char} (hc : c ∈ word) (hplain : IsPlain c) :
    c ∈ name := by
  induction h with
  | nil => cases hc
  | cons hmatch _ ih =>
    obtain ⟨hp, hname⟩ := List.forall_mem_cons.mp hname
    rcases List.mem_cons.mp hc with rfl | hc
    · rw [Matches.unique hplain hp (.inl (.inl rfl)) hmatch]
      exact List.mem_cons_self
    · exact List.mem_cons_of_mem _ (ih hname hc)

namespace Literal

open Text (Digits)

theorem ExponentText.mem {tail digits : Text} {negative : Bool}
    (h : ExponentText tail negative digits) {c : Char} (hc : c ∈ tail) :
    c.isDigit ∨ c ∈ "eE+-".toList := by
  cases h with
  | none => cases hc
  | power mark hmark sign digits negative hsign hne hdigits =>
    rcases List.mem_cons.mp hc with rfl | hc
    · rcases hmark with rfl | rfl <;> decide
    · rcases List.mem_append.mp hc with hc | hc
      · have hsigns : sign ⊆ "eE+-".toList := by cases hsign <;> decide
        exact .inr (hsigns hc)
      · exact .inl (hdigits c hc)

theorem FractionText.mem {middle fraction : Text} (h : FractionText middle fraction) {c : Char}
    (hc : c ∈ middle) : c.isDigit ∨ c = '.' := by
  cases h with
  | none => cases hc
  | point _ hdigits =>
    rcases List.mem_cons.mp hc with rfl | hc
    · exact .inr rfl
    · exact .inl (hdigits c hc)

/-- The characters of a decimal besides its digits. -/
def decimalMarks : Text := ".eE+-".toList

theorem DecimalText.mem {s : Text} {w : WrittenDecimal} (h : DecimalText s w) {c : Char}
    (hc : c ∈ s) : c.isDigit ∨ c ∈ decimalMarks := by
  obtain ⟨middle, tail, rfl, hwhole, hfraction, hexponent, -⟩ := h
  rcases List.mem_append.mp hc with hc | hc
  · exact .inl (hwhole c hc)
  · rcases List.mem_append.mp hc with hc | hc
    · refine (hfraction.mem hc).imp_right ?_
      rintro rfl
      decide
    · have hmarks : "eE+-".toList ⊆ decimalMarks := by decide
      exact (hexponent.mem hc).imp_right (@hmarks c)

end Literal

namespace Token

/-- The words of the symbols and of literals, whether or not the literal has a value. -/
def IsKnown (word : Text) : Prop :=
  (∃ entry ∈ symbols, word ∈ spelling Matches entry.1) ∨ word ∈ literal Matches

theorem symbols_dash : ∀ entry ∈ symbols, entry.1.head? = some '-' → entry.1 = ['-'] := by decide

theorem eq_dash_of_symbol {body : Text} {entry : Text × Token} (hentry : entry ∈ symbols)
    (h : '-' :: body ∈ spelling Matches entry.1) : body = [] := by
  have hplain := symbols_plain entry hentry
  have hdash := symbols_dash entry hentry
  generalize entry.1 = name at h hplain hdash
  cases h with
  | cons hmatch hrest =>
    have hp := (List.forall_mem_cons.mp hplain).1
    obtain rfl := Text.Matches.unique (by decide) hp (.inl (.inl rfl)) hmatch
    obtain ⟨-, rfl⟩ := List.cons_eq_cons.mp (hdash rfl)
    cases hrest
    rfl

/-- The names that are literals without digits. -/
def literalNames : List Text := ["inf".toList, "infinity".toList, "nan".toList]

/-- The small letters and other plain characters of a literal besides its digits. -/
def literalMarks : Text := "infinitynan".toList ++ Literal.decimalMarks

/-- What can follow the sign of a literal. -/
inductive UnsignedLiteral (body : Text) : Prop
  | name (name : Text) (hname : name ∈ literalNames)
    (h : List.Forall₂ Matches body name)
  | decimal (w : WrittenDecimal) (h : Literal.DecimalText body w)

theorem literalNames_plain : ∀ name ∈ literalNames, IsPlainName name := by decide

theorem exists_unsignedLiteral {word : Text} {l : Literal} (h : Literal.LiteralText word l) :
    ∃ sign negative body, Literal.SignText sign negative ∧ UnsignedLiteral body ∧
      word = sign ++ body := by
  have hspells : ∀ {body name : Text}, name ∈ literalNames → body.spells name →
      UnsignedLiteral body := fun hname hbody =>
    .name _ hname ((Text.spells_iff (literalNames_plain _ hname)).mp hbody)
  cases h with
  | infinity sign body negative hsign hbody =>
    exact ⟨sign, negative, body, hsign, hbody.elim (hspells (by decide)) (hspells (by decide)), rfl⟩
  | nan sign body negative hsign hbody =>
    exact ⟨sign, negative, body, hsign, hspells (by decide) hbody, rfl⟩
  | decimal sign body w hsign hbody => exact ⟨sign, _, body, hsign, .decimal w hbody, rfl⟩

theorem UnsignedLiteral.mem {body : Text} (h : UnsignedLiteral body) {c : Char} (hc : c ∈ body)
    (hplain : Text.IsPlain c) : c.isDigit ∨ c ∈ literalMarks := by
  cases h with
  | name name hname h =>
    have hmarks : ∀ name ∈ literalNames, name ⊆ literalMarks := by decide
    have hc := Text.mem_of_forall₂_matches (literalNames_plain name hname) h hc hplain
    exact .inr (hmarks name hname hc)
  | decimal w h => exact (h.mem hc).imp_right fun hc => List.mem_append_right _ hc

theorem UnsignedLiteral.head {body : Text} (h : UnsignedLiteral body) : body.head? ≠ some '-' := by
  cases h with
  | name name hname h =>
    have hdash : ∀ name ∈ literalNames, '-' ∉ name := by decide
    intro hhead
    exact hdash name hname (Text.mem_of_forall₂_matches (literalNames_plain name hname) h
      (List.mem_of_head? hhead) (by decide))
  | decimal w h =>
    obtain ⟨c, rest, rfl, hc⟩ := h.head
    rintro ⟨rfl⟩
    revert hc
    decide

/-- After the dash of a known word comes no other dash, and of the plain characters only
those of literals. -/
theorem IsKnown.of_dash {body : Text} (h : IsKnown ('-' :: body)) :
    body.head? ≠ some '-' ∧
      ∀ c ∈ body, Text.IsPlain c → c.isDigit ∨ c ∈ literalMarks := by
  rcases h with ⟨entry, hentry, h⟩ | h
  · rw [eq_dash_of_symbol hentry h]
    exact ⟨nofun, nofun⟩
  · obtain ⟨l, hl⟩ := mem_literal_matches.mp h
    obtain ⟨sign, negative, unsigned, hsign, hbody, heq⟩ := exists_unsignedLiteral hl
    cases hsign with
    | none => exact absurd (congrArg List.head? heq).symm hbody.head
    | plus => cases heq
    | minus =>
      obtain rfl : body = unsigned := (List.cons.inj heq).2
      exact ⟨hbody.head, fun c hc hplain => hbody.mem hc hplain⟩

end Token

end ReversePolish
