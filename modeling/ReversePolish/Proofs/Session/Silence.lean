import ReversePolish.Proofs.Evaluation.Resumption
import ReversePolish.Proofs.Evaluation.Verbosity
import ReversePolish.Proofs.Session.Colour
import ReversePolish.Proofs.Session.Titles

/-! Silent settings. What an evaluation writes last depends on the words only; settings decide
about warnings, traces and statistics, which stand beside it. Settings without any of them
leave only the last message, and its lines are lines of all other settings. -/

namespace ReversePolish

/-- The pieces of a text between its line ends. The last one is empty if a line end closes the
text. -/
def Text.lines (s : Text) : List Text := s.splitOn '\n'

namespace Message

theorem exists_written (controls : Bool) (m : Message) : ∃ s, m.written controls = s ++ ['\n'] := by
  cases controls with
  | true => exact ⟨m.text, rfl⟩
  | false => exact ⟨m.text.stripControls, m.written_false_eq⟩

/-- A message gives whole lines, whatever is written after it. -/
theorem exists_lines (controls : Bool) (m : Message) :
    ∃ own, ∀ rest, Text.lines (m.written controls ++ rest) = own ++ Text.lines rest := by
  obtain ⟨s, hs⟩ := m.exists_written controls
  refine ⟨s.splitOn '\n', fun rest => ?_⟩
  rw [hs, List.append_assoc, List.singleton_append]
  exact List.splitOn_append_cons_self s rest

theorem lines_flatMap_sublist (controls : Bool) {p q : List Message} (h : p.Sublist q) :
    (Text.lines (p.flatMap (written controls))).Sublist
      (Text.lines (q.flatMap (written controls))) := by
  induction h with
  | slnil => exact .refl _
  | cons m _ ih =>
    obtain ⟨own, hlines⟩ := m.exists_lines controls
    rw [List.flatMap_cons, hlines]
    exact ih.trans (List.sublist_append_right _ _)
  | cons_cons m _ ih =>
    obtain ⟨own, hlines⟩ := m.exists_lines controls
    rw [List.flatMap_cons, List.flatMap_cons, hlines, hlines]
    exact ih.append_left own

/-- Fewer messages give fewer lines. -/
theorem lines_transcript_sublist (controls : Bool) (channel : Channel) {p q : List Message}
    (h : p.Sublist q) : (Text.lines (transcript controls channel p)).Sublist
      (Text.lines (transcript controls channel q)) :=
  lines_flatMap_sublist controls (h.filter _)

end Message

/-- The same settings, but without warnings, traces and statistics. -/
def Settings.silent (s : Settings) : Settings :=
  { s with verbosity := 0, statistics := false, quiet := true }

namespace Session

/-- What an evaluation writes last is decided by the words alone. -/
theorem exists_conclusion (words : List Text) (tokens : List Token) :
    ∃ last, ∀ s : Session,
      (s.evaluateTokens words tokens).messages = s.preface words tokens ++ [last] := by
  have hverbosity : ∀ s : Session, (Stack.run [] s.settings.verbosity (tokens.map .token)).outcome =
      (Stack.run [] 0 (tokens.map .token)).outcome := fun s =>
    Stack.run_outcome_verbosity s.settings.verbosity 0 [] (tokens.map .token)
  cases houtcome : (Stack.run [] 0 (tokens.map .token)).outcome with
  | ok v => exact ⟨_, fun s => (evaluateTokens_of_ok ((hverbosity s).trans houtcome)).1⟩
  | error e =>
    cases e with
    | missingOperands t i s' =>
      exact ⟨_, fun s => (evaluateTokens_of_error ((hverbosity s).trans houtcome) rfl).1⟩
    | unbalanced s' =>
      exact ⟨_, fun s => (evaluateTokens_of_error ((hverbosity s).trans houtcome) rfl).1⟩
    | unclassified text => exact absurd houtcome (Stack.outcome_ne_unclassified _ _ _ _)

theorem preface_silent (settings : Settings) (words : List Text) (tokens : List Token) :
    (start settings.silent).preface words tokens = [] := by
  have htrace : (Stack.run [] 0 (tokens.map .token)).trace = [] := Run.trace_of_nonpos le_rfl 0 [] _
  have hpreface : (start settings.silent).preface words tokens =
      (Stack.run [] 0 (tokens.map .token)).trace.map fun moment => ⟨.report, moment.display⟩ := rfl
  rw [hpreface, htrace, List.map_nil]

/-- All that a silent evaluation writes is written in any other settings too. -/
theorem messages_silent_sublist (settings : Settings) (words : List Text) (tokens : List Token) :
    ((start settings.silent).evaluateTokens words tokens).messages.Sublist
      ((start settings).evaluateTokens words tokens).messages := by
  obtain ⟨last, hlast⟩ := exists_conclusion words tokens
  rw [hlast, hlast, preface_silent]
  exact List.sublist_append_right _ _

end Session

end ReversePolish
