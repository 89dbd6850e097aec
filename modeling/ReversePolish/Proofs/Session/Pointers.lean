import ReversePolish.Proofs.Display.Columns
import ReversePolish.Proofs.Evaluation.Resumption
import ReversePolish.Proofs.Session.Colour
import ReversePolish.Proofs.Session.Titles
import ReversePolish.Proofs.Token.Words

/-! What a session points at in plain output. The warning marks the words of the invalid
tokens, and a report of missing operands marks the word of the first operator that lacks
them. A warning comes before everything else and changes nothing of what comes after it. -/

namespace ReversePolish

open Text (escape stripControls)
open Token (Underflows)
open Display (PointsAt shownWords)

namespace Message

variable {title : Text}

/-- The title without its colour, and the text that belongs to it. -/
def plainBanner (title detail : Text) : Text := ' ' :: title ++ ' ' :: ' ' :: detail

theorem stripControls_banner (htitle : escape ∉ title) (detail : Text) :
    stripControls (banner title detail) = plainBanner title (stripControls detail) := by
  have hcolour : Text.ControlSequence (Text.rendition "30;43".toList) :=
    Text.controlSequence_rendition (by decide)
  have hreset : Text.ControlSequence Text.plainRendition :=
    Text.controlSequence_rendition (by decide)
  have hname : escape ∉ ' ' :: title ++ [' '] := by
    simpa using ⟨by decide, htitle, by decide⟩
  have hbanner : banner title detail =
      Text.rendition "30;43".toList ++ ((' ' :: title ++ [' ']) ++
        (Text.plainRendition ++ ' ' :: detail)) := by
    simp [banner]
  rw [hbanner, Text.stripControls_sequence_append hcolour,
    Text.stripControls_append_of_not_mem hname, Text.stripControls_sequence_append hreset,
    Text.stripControls_cons_of_ne (by decide)]
  simp [plainBanner]

end Message

namespace Session

def inQuiet (s : Session) : Session := { s with settings := { s.settings with quiet := true } }

/-- On any terminal the report is a titled text that ends with two lines, the second of
which points at words of the first. -/
def PointsOut (s : Session) (title detail : Text) (shown : List Text) (marked : Nat → Prop)
    (m : Message) : Prop :=
  m.channel = .report ∧ ∃ upper lower, PointsAt shown marked upper lower ∧
    ∀ terminal, m.written (keepsControls s.settings.plain terminal) =
      Message.plainBanner title (detail ++ upper ++ '\n' :: lower) ++ ['\n']

/-- What a warning about so many tokens says. -/
def warningDetail (count : Nat) : Text :=
  Text.ofNat count ++ " invalid token(s) will be ignored.\n".toList

/-- What a report says that names an operator without operands. -/
def operatorDetail (t : Token) : Text :=
  "Not enough values on stack to apply operator `".toList ++ t.source ++ "`.\n".toList

/-- The words as a warning shows them: an empty word, which is invalid, gets a sign. -/
def warnedWords (words : List Text) : List Text :=
  words.map fun word => if word = [] then ['␣'] else word

/-- There is one warning, which counts the invalid tokens and points at their words, or none
if the session is quiet or no token is invalid. -/
structure Warns (s : Session) (words : List Text) (tokens : List Token)
    (warning : List Message) : Prop where
  points : s.settings.quiet = false → 0 < tokens.count .invalid →
    ∃ m, warning = [m] ∧ s.PointsOut warningTitle (warningDetail (tokens.count .invalid))
      (warnedWords words) (fun i => tokens[i]? = some .invalid) m
  nothing : s.settings.quiet = true ∨ tokens.count .invalid = 0 → warning = []

/-- Missing operands are reported exactly if there are some. The report comes last, names the
first operator that lacks operands, and points at its word. -/
structure ReportsUnderflow (s : Session) (words : List Text) (tokens : List Token)
    (messages : List Message) : Prop where
  titled_iff : (∃ m ∈ messages, m.HasTitle Failure.missingOperands.title) ↔
    (Stack.run [] 0 (tokens.map .token)).ending = .missingOperands
  points : (Stack.run [] 0 (tokens.map .token)).ending = .missingOperands →
    ∃ i t word before m, IsLeast {i | Underflows 0 tokens i} i ∧ tokens[i]? = some t ∧
      t.isOperator ∧ words[i]? = some word ∧ word ∈ Grammar.spelling Text.Matches t.source ∧
      messages = before ++ [m] ∧ (∀ other ∈ before, other.IsAside) ∧
      s.PointsOut Failure.missingOperands.title (operatorDetail t) words (· = i) m

/-- The session evaluates the words as it does in quiet, after a warning where one is due. -/
def Diagnoses (s : Session) (words : List Text) (tokens : List Token) : Prop :=
  ∃ reply quiet warning, s.evaluate words = .ok reply ∧ s.inQuiet.evaluate words = .ok quiet ∧
    quiet.session = reply.session.inQuiet ∧ quiet.unexplained = reply.unexplained ∧
    reply.messages = warning ++ quiet.messages ∧ s.Warns words tokens warning ∧
    (∀ m ∈ quiet.messages, ¬m.HasTitle warningTitle) ∧
    s.ReportsUnderflow words tokens reply.messages

variable {s : Session} {words : List Text} {tokens : List Token}

section Quiet

theorem warning_inQuiet (s : Session) (words : List Text) (tokens : List Token) :
    s.inQuiet.warning words tokens = [] := rfl

/-- In quiet an evaluation only loses its warning. -/
theorem evaluateTokens_inQuiet (s : Session) (words : List Text) (tokens : List Token) :
    (s.inQuiet.evaluateTokens words tokens).session =
        (s.evaluateTokens words tokens).session.inQuiet ∧
      (s.inQuiet.evaluateTokens words tokens).unexplained =
        (s.evaluateTokens words tokens).unexplained ∧
      (s.evaluateTokens words tokens).messages =
        s.warning words tokens ++ (s.inQuiet.evaluateTokens words tokens).messages := by
  have hverbosity : s.inQuiet.settings.verbosity = s.settings.verbosity := rfl
  simp only [evaluateTokens, hverbosity, warning_inQuiet, List.nil_append]
  cases (Stack.run [] s.settings.verbosity (tokens.map .token)).outcome with
  | ok v => exact ⟨rfl, rfl, List.append_assoc ..⟩
  | error e => cases e <;> exact ⟨rfl, rfl, List.append_assoc ..⟩

end Quiet

section Plain

/-- In plain output a titled report that ends with a pointer points its words out. -/
theorem pointsOut_banner (hplain : s.settings.plain = true) {color : Text}
    (hcolor : Text.ControlSequence color) (positions : List Int)
    (hwords : ∀ word ∈ words, escape ∉ word ∧ '\n' ∉ word) {title text detail : Text}
    (htitle : escape ∉ title) (htext : stripControls text =
      detail ++ stripControls (Display.pointer color positions words)) :
    s.PointsOut title detail (shownWords positions words) (fun i => (i : Int) ∈ positions)
      ⟨.report, Message.banner title text⟩ := by
  refine ⟨rfl, _, _, Display.pointsAt_shownWords positions fun word hword => (hwords word hword).2,
    fun terminal => ?_⟩
  have hkeeps : keepsControls s.settings.plain terminal = false := by
    rw [hplain]
    rfl
  rw [hkeeps, Message.written_false_eq, Message.stripControls_banner htitle, htext,
    Display.stripControls_pointer hcolor.invisible positions fun word hword => (hwords word hword).1,
    List.append_assoc]

end Plain

section Last

theorem exists_last_message (s : Session) (words : List Text) (tokens : List Token) :
    ∃ last, (s.evaluateTokens words tokens).messages = s.preface words tokens ++ [last] ∧
      ((∃ v, (Stack.run [] s.settings.verbosity (tokens.map .token)).outcome = .ok v ∧
        last = ⟨.result, NumberStyle.plain.write v⟩) ∨
      ∃ e d, (Stack.run [] s.settings.verbosity (tokens.map .token)).outcome = .error e ∧
        e.incident = .diagnosed d ∧ last = ⟨.report, d.explanation words⟩) := by
  cases houtcome : (Stack.run [] s.settings.verbosity (tokens.map .token)).outcome with
  | ok v => exact ⟨_, (evaluateTokens_of_ok houtcome).1, .inl ⟨v, rfl, rfl⟩⟩
  | error e =>
    cases hincident : e.incident with
    | diagnosed d =>
      exact ⟨_, (evaluateTokens_of_error houtcome hincident).1, .inr ⟨e, d, rfl, hincident, rfl⟩⟩
    | unexplained message =>
      cases e <;> cases hincident
      exact absurd houtcome (Stack.outcome_ne_unclassified _ _ _ _)

end Last

section Warning

theorem escape_not_mem_warningDetail (count : Nat) : escape ∉ warningDetail count := by
  rw [warningDetail, List.mem_append, not_or]
  exact ⟨Text.escape_not_mem_ofNat count, Text.escape_not_mem_literal (by decide)⟩

theorem pointsOut_warning (hplain : s.settings.plain = true)
    (hwords : ∀ word ∈ words, escape ∉ word ∧ '\n' ∉ word)
    (htokens : Token.ofWords words = .ok tokens) (hquiet : s.settings.quiet = false)
    (hcount : 0 < tokens.count .invalid) :
    ∃ m, s.warning words tokens = [m] ∧
      s.PointsOut warningTitle (warningDetail (tokens.count .invalid)) (warnedWords words)
        (fun i => tokens[i]? = some .invalid) m := by
  have hmarked : ∀ i : Nat, (i : Int) ∈ (Token.invalidPositions tokens).map Int.ofNat ↔
      tokens[i]? = some .invalid := by
    intro i
    rw [← Token.mem_invalidPositions]
    exact List.mem_map_of_injective Int.ofNat_injective
  have hempty : ∀ i : Nat, words[i]? = some [] →
      (i : Int) ∈ (Token.invalidPositions tokens).map Int.ofNat := by
    intro i hi
    obtain ⟨t, ht, hword⟩ := Token.exists_token_of_getElem? htokens hi
    cases Token.ofWord_nil.symm.trans hword
    exact (hmarked i).mpr ht
  rw [← Token.length_invalidPositions] at hcount ⊢
  have hsome : (Token.invalidPositions tokens).isEmpty = false :=
    List.isEmpty_eq_false_iff.mpr (List.ne_nil_of_length_pos hcount)
  have hcolor : Text.ControlSequence (Text.rendition "33".toList) :=
    Text.controlSequence_rendition (by decide)
  have htitle : escape ∉ warningTitle := by decide
  have hpoints := pointsOut_banner hplain hcolor
    ((Token.invalidPositions tokens).map Int.ofNat) hwords htitle
    (Text.stripControls_append_of_not_mem
      (escape_not_mem_warningDetail (Token.invalidPositions tokens).length) _)
  rw [Display.shownWords_of_forall_marked hempty, funext fun i => propext (hmarked i)] at hpoints
  refine ⟨_, ?_, hpoints⟩
  rw [warning, hquiet, hsome]
  rfl

theorem warns_warning (hplain : s.settings.plain = true)
    (hwords : ∀ word ∈ words, escape ∉ word ∧ '\n' ∉ word)
    (htokens : Token.ofWords words = .ok tokens) :
    s.Warns words tokens (s.warning words tokens) where
  points hquiet hcount := pointsOut_warning hplain hwords htokens hquiet hcount
  nothing h := by
    rcases h with hquiet | hcount
    · rw [warning, hquiet]
      rfl
    · rw [← Token.length_invalidPositions, List.length_eq_zero_iff] at hcount
      rw [warning, hcount, List.isEmpty_nil, Bool.or_true]
      rfl

/-- Nothing but a warning has its title. -/
theorem not_hasTitle_warning_inQuiet (s : Session) (words : List Text) (tokens : List Token) :
    ∀ m ∈ (s.inQuiet.evaluateTokens words tokens).messages, ¬m.HasTitle warningTitle := by
  obtain ⟨last, hmessages, hlast⟩ := s.inQuiet.exists_last_message words tokens
  rw [hmessages, preface, warning_inQuiet, List.nil_append]
  refine List.forall_mem_append.mpr ⟨?_, List.forall_mem_singleton.mpr fun htitle => ?_⟩
  · exact List.forall_mem_map.mpr fun moment _ => not_hasTitle_display _ moment
  · rcases hlast with ⟨v, -, rfl⟩ | ⟨e, d, -, -, rfl⟩
    · cases htitle.1
    · exact title_ne_warningTitle d.failure ((d.hasTitle_explanation words).unique
        d.failure.escape_not_mem_title (by decide) htitle)

end Warning

section Underflow

theorem stripControls_name {before name after : Text} (hbefore : escape ∉ before)
    (hname : escape ∉ name) (hafter : escape ∉ after) (rest : Text) :
    stripControls (before ++ Text.rendition "1;97".toList ++ name ++ Text.plainRendition ++
      after ++ rest) = before ++ name ++ after ++ stripControls rest := by
  have hcolour : Text.ControlSequence (Text.rendition "1;97".toList) :=
    Text.controlSequence_rendition (by decide)
  have hreset : Text.ControlSequence Text.plainRendition :=
    Text.controlSequence_rendition (by decide)
  simp only [List.append_assoc]
  rw [Text.stripControls_append_of_not_mem hbefore, Text.stripControls_sequence_append hcolour,
    Text.stripControls_append_of_not_mem hname, Text.stripControls_sequence_append hreset,
    Text.stripControls_append_of_not_mem hafter]

theorem stripControls_operator (t : Token) (pointer : Text) :
    stripControls ("Not enough values on stack to apply operator `".toList ++
      Text.rendition "1;97".toList ++ t.source ++ Text.plainRendition ++ "`.\n".toList ++
        pointer) = operatorDetail t ++ stripControls pointer :=
  stripControls_name (Text.escape_not_mem_literal (by decide)) t.escape_not_mem_source
    (Text.escape_not_mem_literal (by decide)) pointer

/-- The report of an operator that lacks operands points at its word. -/
theorem pointsOut_explanation (hplain : s.settings.plain = true)
    (hwords : ∀ word ∈ words, escape ∉ word ∧ '\n' ∉ word) {word : Text} (t : Token) {i : Nat}
    (hword : words[i]? = some word) (hne : word ≠ []) :
    s.PointsOut Failure.missingOperands.title (operatorDetail t) words (· = i)
      ⟨.report, (Diagnosis.missingOperands t (some (i : Int))).explanation words⟩ := by
  have hmarked : ∀ j : Nat, (j : Int) ∈ [(i : Int)] ↔ j = i := by
    intro j
    rw [List.mem_singleton, Int.natCast_inj]
  have hshown : shownWords [(i : Int)] words = words := by
    refine Display.shownWords_of_forall_ne_nil fun j hj hempty => hne ?_
    rw [(hmarked j).mp hj, hword] at hempty
    exact Option.some.inj hempty
  have hcolor : Text.ControlSequence Display.green := Text.controlSequence_rendition (by decide)
  have hpoints := pointsOut_banner hplain hcolor [(i : Int)] hwords
    Failure.missingOperands.escape_not_mem_title (stripControls_operator t _)
  rwa [hshown, funext fun j => propext (hmarked j)] at hpoints

theorem ending_eq_missingOperands_iff (verbosity verbosity' : Int) (tokens : List Token) :
    (Stack.run [] verbosity (tokens.map .token)).ending = .missingOperands ↔
      ∃ t i s', (Stack.run [] verbosity' (tokens.map .token)).outcome =
        .error (.missingOperands t i s') := by
  rw [Run.ending, Stack.run_outcome_verbosity verbosity verbosity']
  split <;> rename_i houtcome <;> simp [houtcome]

theorem exists_title_iff (s : Session) (words : List Text) (tokens : List Token) :
    (∃ m ∈ (s.evaluateTokens words tokens).messages,
        m.HasTitle Failure.missingOperands.title) ↔
      (Stack.run [] 0 (tokens.map .token)).ending = .missingOperands := by
  rw [ending_eq_missingOperands_iff 0 s.settings.verbosity]
  constructor
  · rintro ⟨m, hm, htitle⟩
    obtain ⟨last, hmessages, hlast⟩ := s.exists_last_message words tokens
    rw [hmessages, List.mem_append, List.mem_singleton] at hm
    rcases hm with hm | rfl
    · exact absurd htitle ((s.isAside_preface words tokens m hm).2 .missingOperands)
    · rcases hlast with ⟨v, -, rfl⟩ | ⟨e, d, houtcome, hincident, rfl⟩
      · cases htitle.1
      · have hfailure : d.failure = .missingOperands := Failure.title_injective
          ((d.hasTitle_explanation words).unique d.failure.escape_not_mem_title
            (Failure.escape_not_mem_title _) htitle)
        cases e with
        | missingOperands t i s' => exact ⟨t, i, s', houtcome⟩
        | unbalanced s' =>
          cases hincident
          cases hfailure
        | unclassified text => cases hincident
  · rintro ⟨t, i, s', houtcome⟩
    rw [(evaluateTokens_of_error houtcome rfl).1]
    exact ⟨_, List.mem_append_right _ (List.mem_singleton_self _),
      Diagnosis.hasTitle_explanation words _⟩

theorem reportsUnderflow_evaluateTokens (hplain : s.settings.plain = true)
    (hwords : ∀ word ∈ words, escape ∉ word ∧ '\n' ∉ word)
    (htokens : Token.ofWords words = .ok tokens) :
    s.ReportsUnderflow words tokens (s.evaluateTokens words tokens).messages where
  titled_iff := s.exists_title_iff words tokens
  points h := by
    obtain ⟨t, i, s', houtcome⟩ :=
      (ending_eq_missingOperands_iff 0 s.settings.verbosity tokens).mp h
    obtain ⟨hleast, ht, -, -, hlt, -⟩ := Stack.missingOperands_report houtcome
    have hoperator : t.isOperator := Token.isOperator_of_arity_pos (Nat.zero_lt_of_lt hlt)
    obtain ⟨word, hword, hof⟩ := Token.exists_word_of_getElem? htokens ht
    -- An empty word is invalid, so the operator's word is shown as it stands.
    have hne : word ≠ [] := by
      rintro rfl
      cases Token.ofWord_nil.symm.trans hof
      cases hoperator
    exact ⟨i, t, word, _, _, hleast, ht, hoperator, hword,
      Token.mem_spelling_source hof hoperator, (evaluateTokens_of_error houtcome rfl).1,
      s.isAside_preface words tokens, pointsOut_explanation hplain hwords t hword hne⟩

end Underflow

/-- In plain output the warning and the report of missing operands point at the words that
they are about, and the warning leaves the evaluation as it is. -/
theorem diagnoses_of_plain (hplain : s.settings.plain = true)
    (hwords : ∀ word ∈ words, escape ∉ word ∧ '\n' ∉ word)
    (htokens : Token.ofWords words = .ok tokens) : s.Diagnoses words tokens := by
  have hevaluate : ∀ s : Session, s.evaluate words = .ok (s.evaluateTokens words tokens) := by
    intro s
    rw [evaluate, htokens]
    rfl
  obtain ⟨hsession, hunexplained, hmessages⟩ := s.evaluateTokens_inQuiet words tokens
  exact ⟨_, _, s.warning words tokens, hevaluate s, hevaluate s.inQuiet, hsession, hunexplained,
    hmessages, warns_warning hplain hwords htokens,
    s.not_hasTitle_warning_inQuiet words tokens,
    reportsUnderflow_evaluateTokens hplain hwords htokens⟩

/-- An operator that lacks operands after two invalid words, one of them empty. -/
theorem diagnoses_of_plain_mixed :
    (∀ word ∈ ["pi".toList, [], "x".toList, "+".toList], escape ∉ word ∧ '\n' ∉ word) ∧
      Token.ofWords ["pi".toList, [], "x".toList, "+".toList] =
        .ok [.constant .pi, .invalid, .invalid, .binary .add] ∧
      (start ⟨1, false, true, false⟩).Diagnoses ["pi".toList, [], "x".toList, "+".toList]
        [.constant .pi, .invalid, .invalid, .binary .add] := by
  have hwords : ∀ word ∈ ["pi".toList, [], "x".toList, "+".toList],
      escape ∉ word ∧ '\n' ∉ word := by decide
  have htokens : Token.ofWords ["pi".toList, [], "x".toList, "+".toList] =
      .ok [.constant .pi, .invalid, .invalid, .binary .add] := rfl
  exact ⟨hwords, htokens, diagnoses_of_plain rfl hwords htokens⟩

end Session

end ReversePolish
