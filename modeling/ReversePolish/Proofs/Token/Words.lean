import ReversePolish.Proofs.Token.Classification

/-! The tokens of several words. Words have tokens exactly if each of them has one, and
each token stands where its word does. Otherwise the first word without a token is the
one whose error is reported. -/

namespace ReversePolish.Token

open Grammar Text

variable {word : Text} {words : List Text} {t : Token} {tokens : List Token} {e : LiteralError}

theorem ofWord_nil : ofWord [] = .ok .invalid := rfl

theorem ofWords_cons (word : Text) (rest : List Text) :
    ofWords (word :: rest) = (ofWord word).bind fun t => (ofWords rest).map (t :: ·) := by
  rw [ofWords, List.mapM_cons]
  cases ofWord word with
  | error e => rfl
  | ok t =>
    rw [ofWords]
    cases rest.mapM ofWord <;> rfl

theorem ofWords_eq_ok_iff :
    ofWords words = .ok tokens ↔ List.Forall₂ (fun word t => ofWord word = .ok t) words tokens := by
  induction words generalizing tokens with
  | nil => simp [ofWords, pure, Except.pure, eq_comm]
  | cons word rest ih =>
    rw [ofWords_cons]
    cases hword : ofWord word with
    | error e => cases tokens <;> simp [Except.bind, hword]
    | ok t =>
      cases hrest : ofWords rest with
      | error e => cases tokens <;> simp [Except.bind, Except.map, ← ih, hrest]
      | ok others => cases tokens <;> simp [Except.bind, Except.map, ← ih, hrest, hword]

/-- The words report the error of the first among them that has no token. -/
theorem ofWords_eq_error_iff :
    ofWords words = .error e ↔ ∃ before word after, words = before ++ word :: after ∧
      (∀ w ∈ before, ∃ t, ofWord w = .ok t) ∧ ofWord word = .error e := by
  induction words with
  | nil =>
    refine iff_of_false (fun h => ?_) ?_
    · cases h
    · rintro ⟨before, word, after, heq, -⟩
      simp at heq
  | cons first rest ih =>
    rw [ofWords_cons]
    constructor
    · intro h
      cases hfirst : ofWord first with
      | error e' =>
        rw [hfirst] at h
        cases h
        exact ⟨[], first, rest, rfl, List.forall_mem_nil _, hfirst⟩
      | ok t =>
        rw [hfirst] at h
        cases hrest : ofWords rest with
        | ok others =>
          rw [hrest] at h
          cases h
        | error e' =>
          rw [hrest] at h
          cases h
          obtain ⟨before, word, after, rfl, hbefore, hword⟩ := ih.mp hrest
          exact ⟨first :: before, word, after, rfl,
            List.forall_mem_cons.mpr ⟨⟨t, hfirst⟩, hbefore⟩, hword⟩
    · rintro ⟨before, word, after, heq, hbefore, hword⟩
      cases before with
      | nil =>
        cases heq
        rw [hword]
        rfl
      | cons first' before =>
        cases heq
        obtain ⟨⟨t, hfirst⟩, hbefore⟩ := List.forall_mem_cons.mp hbefore
        rw [hfirst, ih.mpr ⟨before, word, after, rfl, hbefore, hword⟩]
        rfl

theorem length_of_ofWords (h : ofWords words = .ok tokens) : words.length = tokens.length :=
  (ofWords_eq_ok_iff.mp h).length_eq

/-- Each token is that of the word in its place. -/
theorem exists_word_of_getElem? (h : ofWords words = .ok tokens) {i : Nat}
    (ht : tokens[i]? = some t) : ∃ word, words[i]? = some word ∧ ofWord word = .ok t := by
  obtain ⟨hi, rfl⟩ := List.getElem?_eq_some_iff.mp ht
  have hi' : i < words.length := length_of_ofWords h ▸ hi
  exact ⟨words[i], List.getElem?_eq_getElem hi', (ofWords_eq_ok_iff.mp h).get hi' hi⟩

theorem exists_token_of_getElem? (h : ofWords words = .ok tokens) {i : Nat}
    (hword : words[i]? = some word) : ∃ t, tokens[i]? = some t ∧ ofWord word = .ok t := by
  obtain ⟨hi, rfl⟩ := List.getElem?_eq_some_iff.mp hword
  have hi' : i < tokens.length := length_of_ofWords h ▸ hi
  exact ⟨tokens[i], List.getElem?_eq_getElem hi', (ofWords_eq_ok_iff.mp h).get hi hi'⟩

theorem mem_invalidPositions {i : Nat} :
    i ∈ invalidPositions tokens ↔ tokens[i]? = some invalid := by
  simp [invalidPositions, List.mem_zipIdx_iff_getElem?]

theorem length_invalidPositions (tokens : List Token) :
    (invalidPositions tokens).length = tokens.count invalid := by
  have hcount : (tokens.zipIdx.map Prod.fst).countP (· == invalid) = tokens.count invalid := by
    rw [List.zipIdx_map_fst, List.count]
  rw [← hcount, List.countP_map, List.countP_eq_length_filter, invalidPositions, List.length_map]
  rfl

theorem isOperator_of_arity_pos (h : 0 < t.arity) : t.isOperator := by
  cases t with
  | unary op => rfl
  | binary op => rfl
  | number v => cases h
  | constant c => cases h
  | invalid => cases h

theorem mem_symbols_of_isOperator (h : t.isOperator) : (t.source, t) ∈ symbols := by
  cases t with
  | unary op => cases op <;> decide
  | binary op => cases op <;> decide
  | number v => cases h
  | constant c => cases h
  | invalid => cases h

/-- The word of an operator spells the name by which the operator is shown. -/
theorem mem_spelling_source (hword : ofWord word = .ok t) (h : t.isOperator) :
    word ∈ spelling Matches t.source :=
  (symbol_iff hword (mem_symbols_of_isOperator h)).mp rfl

end ReversePolish.Token
