import ReversePolish.Token
import ReversePolish.Proofs.Literal.Grammar
import Mathlib.Data.List.Sections

/-! What a word is. A word of a symbol is its token and no word of another symbol nor of
the grammar of literals; a word of the grammar is a number, unless it has no value; every
other word is invalid. Nothing less than the whole word counts, so a known piece that is
followed or preceded by anything is not known. -/

namespace ReversePolish.Token

open Grammar (spelling literal mem_spelling_matches mem_literal_matches)
open Text (IsPlainName IsCaseOf Matches)

variable {word : Text}

theorem symbols_plain : ∀ entry ∈ symbols, IsPlainName entry.1 := by decide

theorem symbols_distinct : ∀ a ∈ symbols, ∀ b ∈ symbols, a.1 = b.1 → a = b := by decide

theorem symbol_unique {a b : Text × Token} (ha : a ∈ symbols) (hb : b ∈ symbols)
    (h : word ∈ spelling Matches a.1) (h' : word ∈ spelling Matches b.1) : a = b :=
  symbols_distinct a ha b hb
    (Text.eq_of_forall₂_matches (symbols_plain a ha) (symbols_plain b hb) h h')

/-- The characters that match `p`. -/
def forms (p : Char) : List Char :=
  [p, p.toUpper] ++ ((if p = 'i' then ['İ', 'ı'] else []) ++ if p = 's' then ['ſ'] else [])

theorem mem_forms {c p : Char} (h : Matches c p) : c ∈ forms p := by
  rcases h with (rfl | rfl) | ⟨rfl, rfl | rfl⟩ | ⟨rfl, rfl⟩ <;> simp [forms]

/-- The words of a symbol are so few that the reader of literals can be asked about each. -/
theorem ofWord?_sections :
    ∀ entry ∈ symbols, ∀ word ∈ (entry.1.map forms).sections, (Literal.ofWord? word).isNone := by
  decide +kernel

theorem symbol_not_literal {entry : Text × Token} (hentry : entry ∈ symbols)
    (h : word ∈ spelling Matches entry.1) : word ∉ literal Matches := by
  rw [mem_literal_matches]
  rintro ⟨l, hl⟩
  have hword : word ∈ (entry.1.map forms).sections :=
    List.mem_sections.mpr (List.forall₂_map_right_iff.mpr (h.imp fun _ _ => mem_forms))
  have hnone := ofWord?_sections entry hentry word hword
  rw [Literal.ofWord?_eq_some_iff.mpr hl] at hnone
  cases hnone

theorem ofSymbol?_of_mem {entry : Text × Token} (hentry : entry ∈ symbols)
    (h : word ∈ spelling Matches entry.1) : ofSymbol? word = some entry.2 := by
  have hspells := (mem_spelling_matches (symbols_plain entry hentry)).mp h
  cases hfind : symbols.find? fun entry => word.spells entry.1 with
  | none => exact absurd hspells (List.find?_eq_none.mp hfind entry hentry)
  | some other =>
    have hother := List.mem_of_find?_eq_some hfind
    have hspells' := List.find?_some hfind
    have heq := symbol_unique hother hentry
      ((mem_spelling_matches (symbols_plain other hother)).mpr hspells') h
    rw [ofSymbol?, hfind, heq]
    rfl

theorem exists_of_ofSymbol? {token : Token} (h : ofSymbol? word = some token) :
    ∃ entry ∈ symbols, word ∈ spelling Matches entry.1 ∧ entry.2 = token := by
  obtain ⟨entry, hfind, rfl⟩ := Option.map_eq_some_iff.mp h
  have hentry := List.mem_of_find?_eq_some hfind
  have hspells := List.find?_some hfind
  exact ⟨entry, hentry, (mem_spelling_matches (symbols_plain entry hentry)).mpr hspells, rfl⟩

theorem ofSymbol?_eq_none_iff :
    ofSymbol? word = none ↔ ∀ entry ∈ symbols, word ∉ spelling Matches entry.1 := by
  constructor
  · intro h entry hentry hword
    rw [ofSymbol?_of_mem hentry hword] at h
    cases h
  · intro h
    rw [Option.eq_none_iff_forall_ne_some]
    intro token htoken
    obtain ⟨entry, hentry, hword, -⟩ := exists_of_ofSymbol? htoken
    exact h entry hentry hword

theorem ofWord_of_symbol {entry : Text × Token} (hentry : entry ∈ symbols)
    (h : word ∈ spelling Matches entry.1) : ofWord word = .ok entry.2 := by
  rw [ofWord, ofSymbol?_of_mem hentry h]

theorem ofWord_of_literal {l : Literal} (h : Literal.LiteralText word l) :
    ofWord word = (l.value word).map number := by
  have hnone : ofSymbol? word = none := ofSymbol?_eq_none_iff.mpr fun entry hentry hword =>
    symbol_not_literal hentry hword (mem_literal_matches.mpr ⟨l, h⟩)
  rw [ofWord, hnone, Literal.ofWord?_eq_some_iff.mpr h]

theorem ofWord_of_other (hsymbol : ∀ entry ∈ symbols, word ∉ spelling Matches entry.1)
    (hliteral : word ∉ literal Matches) : ofWord word = .ok invalid := by
  have hnone : Literal.ofWord? word = none := by
    rw [Option.eq_none_iff_forall_ne_some]
    intro l hl
    exact hliteral (mem_literal_matches.mpr ⟨l, Literal.ofWord?_eq_some_iff.mp hl⟩)
  rw [ofWord, ofSymbol?_eq_none_iff.mpr hsymbol, hnone]

example : ofWord "log3".toList = .ok invalid := rfl

/-- A word is a symbol, a literal, or neither. -/
theorem word_cases (word : Text) :
    (∃ entry ∈ symbols, word ∈ spelling Matches entry.1) ∨
      (∃ l, Literal.LiteralText word l) ∨
      (∀ entry ∈ symbols, word ∉ spelling Matches entry.1) ∧ word ∉ literal Matches := by
  by_cases hsymbol : ∃ entry ∈ symbols, word ∈ spelling Matches entry.1
  · exact .inl hsymbol
  · by_cases hliteral : word ∈ literal Matches
    · exact .inr (.inl (mem_literal_matches.mp hliteral))
    · exact .inr (.inr ⟨fun entry hentry hword => hsymbol ⟨entry, hentry, hword⟩, hliteral⟩)

theorem symbols_operate : ∀ entry ∈ symbols, entry.2 ≠ invalid ∧ ∀ v, entry.2 ≠ number v := by
  simp [symbols, Constant.all, UnaryOperator.all, BinaryOperator.all]

theorem symbols_distinct_tokens : ∀ a ∈ symbols, ∀ b ∈ symbols, a.2 = b.2 → a = b := by decide

theorem literal_of_isCaseOf (h : word ∈ literal IsCaseOf) : word ∈ literal Matches :=
  Grammar.literal_mono (fun _ _ => .inl) h

theorem exists_value_of_literal {token : Token} {l : Literal} (hl : Literal.LiteralText word l)
    (h : ofWord word = .ok token) : ∃ v, l.value word = .ok v ∧ token = number v := by
  rw [ofWord_of_literal hl] at h
  cases hvalue : l.value word with
  | error e =>
    rw [hvalue] at h
    cases h
  | ok v =>
    rw [hvalue] at h
    exact ⟨v, rfl, (Except.ok.inj h).symm⟩

theorem number_iff {token : Token} (h : ofWord word = .ok token) :
    (∃ v, token = number v) ↔ word ∈ literal IsCaseOf := by
  rcases word_cases word with ⟨entry, hentry, hword⟩ | ⟨l, hl⟩ | ⟨hsymbol, hliteral⟩
  · rw [ofWord_of_symbol hentry hword, Except.ok.injEq] at h
    subst h
    refine iff_of_false (fun ⟨v, hv⟩ => (symbols_operate entry hentry).2 v hv) fun hliteral => ?_
    exact symbol_not_literal hentry hword (literal_of_isCaseOf hliteral)
  · obtain ⟨v, hvalue, htoken⟩ := exists_value_of_literal hl h
    exact iff_of_true ⟨v, htoken⟩ (Grammar.mem_literal_of_value hl hvalue)
  · rw [ofWord_of_other hsymbol hliteral, Except.ok.injEq] at h
    subst h
    exact iff_of_false (fun ⟨v, hv⟩ => by cases hv) fun h => hliteral (literal_of_isCaseOf h)

theorem symbol_iff {token : Token} (h : ofWord word = .ok token) {entry : Text × Token}
    (hentry : entry ∈ symbols) : token = entry.2 ↔ word ∈ spelling Matches entry.1 := by
  constructor
  · rintro rfl
    rcases word_cases word with ⟨other, hother, hword⟩ | ⟨l, hl⟩ | ⟨hsymbol, hliteral⟩
    · rw [ofWord_of_symbol hother hword, Except.ok.injEq] at h
      rwa [symbols_distinct_tokens entry hentry other hother h.symm]
    · obtain ⟨v, -, htoken⟩ := exists_value_of_literal hl h
      exact absurd htoken ((symbols_operate entry hentry).2 v)
    · rw [ofWord_of_other hsymbol hliteral] at h
      exact absurd (Except.ok.inj h).symm (symbols_operate entry hentry).1
  · intro hword
    rw [ofWord_of_symbol hentry hword] at h
    exact (Except.ok.inj h).symm

theorem invalid_iff {token : Token} (h : ofWord word = .ok token) :
    token = invalid ↔
      word ∉ literal IsCaseOf ∧ ∀ entry ∈ symbols, word ∉ spelling Matches entry.1 := by
  constructor
  · rintro rfl
    refine ⟨fun hliteral => ?_, fun entry hentry hword => ?_⟩
    · obtain ⟨v, hv⟩ := (number_iff h).mpr hliteral
      cases hv
    · exact (symbols_operate entry hentry).1 ((symbol_iff h hentry).mpr hword).symm
  · rintro ⟨hliteral, hsymbol⟩
    rcases word_cases word with ⟨entry, hentry, hword⟩ | ⟨l, hl⟩ | ⟨-, hneither⟩
    · exact absurd hword (hsymbol entry hentry)
    · obtain ⟨v, -, htoken⟩ := exists_value_of_literal hl h
      exact absurd ((number_iff h).mp ⟨v, htoken⟩) hliteral
    · rw [ofWord_of_other hsymbol hneither] at h
      exact (Except.ok.inj h).symm

theorem literal_of_error {e : LiteralError} (h : ofWord word = .error e) :
    word ∈ literal Matches := by
  rcases word_cases word with ⟨entry, hentry, hword⟩ | ⟨l, hl⟩ | ⟨hsymbol, hliteral⟩
  · rw [ofWord_of_symbol hentry hword] at h
    cases h
  · exact mem_literal_matches.mpr ⟨l, hl⟩
  · rw [ofWord_of_other hsymbol hliteral] at h
    cases h

/-- The words of literals and of the symbols have nothing in common, and each word with a
token is classified by them. Only a word that could be a literal is without a token. -/
theorem ofWord_by_grammar (word : Text) :
    (word ∈ literal Matches → ∀ entry ∈ symbols, word ∉ spelling Matches entry.1) ∧
    (∀ a ∈ symbols, ∀ b ∈ symbols,
      word ∈ spelling Matches a.1 → word ∈ spelling Matches b.1 → a = b) ∧
    (∀ e, ofWord word = .error e → word ∈ literal Matches) ∧
    ∀ token, ofWord word = .ok token →
      ((∃ v, token = number v) ↔ word ∈ literal IsCaseOf) ∧
      (∀ entry ∈ symbols, token = entry.2 ↔ word ∈ spelling Matches entry.1) ∧
      (token = invalid ↔
        word ∉ literal IsCaseOf ∧ ∀ entry ∈ symbols, word ∉ spelling Matches entry.1) := by
  refine ⟨fun hliteral entry hentry hword => symbol_not_literal hentry hword hliteral,
    fun a ha b hb h h' => symbol_unique ha hb h h', fun e h => literal_of_error h, ?_⟩
  intro token h
  exact ⟨number_iff h, fun entry hentry => symbol_iff h hentry, invalid_iff h⟩

end ReversePolish.Token
