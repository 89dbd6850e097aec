import ReversePolish.Proofs.Display.Escapes
import ReversePolish.Proofs.Evaluation.Run
import ReversePolish.Session.Basic

/-! What a session writes in plain output. Words are shown in the warning and in the
explanation of missing operands, everything else that is written is closed by itself. So
plain output has a control sequence only if a word is not closed, and then only among the
reports. -/

namespace ReversePolish

open Text (escape Closed Inert)

namespace Message

variable {words : List Text} {messages : List Message}

theorem closed_banner {title detail : Text} (htitle : escape ∉ title) (hdetail : Closed detail) :
    Closed (banner title detail) := by
  have hcolour : Closed (Text.rendition "30;43".toList) := Text.closed_rendition (by decide)
  exact ((hcolour.append (.other (by decide) (Text.closed_of_not_mem htitle))).append
    (.other (by decide) Text.closed_plainRendition)).append (.other (by decide) hdetail)

theorem inert_written {m : Message} (h : Closed m.text) : Inert (m.written false) :=
  (h.append (.other (by decide) .nil)).inert_stripControls

theorem inert_written_of_not_mem {m : Message} (h : escape ∉ m.text) (controls : Bool) :
    Inert (m.written controls) := by
  cases controls with
  | false => exact inert_written (Text.closed_of_not_mem h)
  | true => exact (Text.inert_of_not_mem h).append (Text.inert_of_not_mem (by decide))

theorem inert_transcript {controls : Bool} {channel : Channel}
    (h : ∀ m ∈ messages, m.channel = channel → Inert (m.written controls)) :
    Inert (transcript controls channel messages) := by
  unfold transcript
  induction messages with
  | nil => exact Text.inert_of_not_mem List.not_mem_nil
  | cons m messages ih =>
    obtain ⟨hm, hmessages⟩ := List.forall_mem_cons.mp h
    rw [List.filter_cons]
    split
    · exact (hm (eq_of_beq ‹_›)).append (ih hmessages)
    · exact ih hmessages

/-- The message is closed if it is a result, or else if the words are closed. -/
def ClosedWith (words : List Text) (m : Message) : Prop :=
  m.channel = .result ∨ (∀ word ∈ words, Closed word) → Closed m.text

theorem closedWith_report {text : Text} (h : (∀ word ∈ words, Closed word) → Closed text) :
    ClosedWith words ⟨.report, text⟩ := by
  rintro (hchannel | hwords)
  · cases hchannel
  · exact h hwords

end Message

theorem Stack.closed_trace (s : Stack) (verbosity : Int) (tokens : List Token) {m : Snapshot}
    (h : m ∈ (s.run verbosity (tokens.map .token)).trace) : Closed m.display := by
  obtain ⟨p, hitems, -, -⟩ := Run.split_of_mem_trace h
  obtain ⟨first, rest, -, -, hrest⟩ := List.map_eq_append_iff.mp hitems
  have hdisplay := Display.closed_display m.step m.stack rest
  rwa [hrest] at hdisplay

namespace Diagnosis

variable {words : List Text}

theorem closed_unbalancedDetail (depth : Int) : Closed (unbalancedDetail depth) := by
  unfold unbalancedDetail
  split
  · exact Text.closed_literal (by decide)
  · have hintro : Closed "Stack contains ".toList := Text.closed_literal (by decide)
    have hdepth : Closed (Text.ofInt depth) :=
      Text.closed_of_not_mem (Text.escape_not_mem_ofInt depth)
    exact (hintro.append hdepth).append (Text.closed_literal (by decide))

theorem closed_stackContent (values : List Binary32) : Closed (stackContent values) := by
  have hstack : Closed (Display.stackText values) :=
    Text.closed_of_not_mem (Display.escape_not_mem_stackText values)
  have htitle : Closed "  Stack content is".toList := Text.closed_literal (by decide)
  have hgap : Closed "\n    ".toList := Text.closed_literal (by decide)
  exact (((((Text.closed_rendition (by decide)).append htitle).append
    (Text.closed_rendition (by decide))).append hgap).append hstack).append
    Text.closed_plainRendition

/-- Of all diagnoses only that of missing operands shows words. -/
theorem closed_explanation {d : Diagnosis} (hwords : ∀ word ∈ words, Closed word)
    (hmessage : ∀ message, d = .noInput message → Closed message) :
    Closed (d.explanation words) := by
  cases d with
  | missingOperands token index =>
    have hintro : Closed "Not enough values on stack to apply operator `".toList :=
      Text.closed_literal (by decide)
    have htoken : Closed token.source := Text.closed_of_not_mem token.escape_not_mem_source
    have hpoint : Closed "`.\n".toList := Text.closed_literal (by decide)
    have hpointer : Closed (Display.pointer Display.green index.toList words) :=
      Display.closed_pointer (Text.closed_rendition (by decide)) _ hwords
    have hcolour : Closed (Text.rendition "1;97".toList) := Text.closed_rendition (by decide)
    have hdetail := ((((hintro.append hcolour).append htoken).append
      Text.closed_plainRendition).append hpoint).append hpointer
    exact Message.closed_banner (Text.escape_not_mem_literal (by decide)) hdetail
  | unbalanced depth values =>
    exact Message.closed_banner (Text.escape_not_mem_literal (by decide))
      ((closed_unbalancedDetail depth).append (.other (by decide) (closed_stackContent _)))
  | noInput message =>
    exact Message.closed_banner (Text.escape_not_mem_literal (by decide)) (hmessage message rfl)

end Diagnosis

namespace Session

variable (s : Session) {words : List Text}

theorem closedWith_warning (words : List Text) (tokens : List Token) :
    ∀ m ∈ s.warning words tokens, m.ClosedWith words := by
  intro m hm
  obtain ⟨-, hm⟩ := List.mem_ite_nil_left.mp hm
  cases List.mem_singleton.mp hm
  refine Message.closedWith_report fun hwords => ?_
  have hcount : Closed (Text.ofNat (Token.invalidPositions tokens).length) :=
    Text.closed_of_not_mem (Text.escape_not_mem_ofNat _)
  have htext : Closed " invalid token(s) will be ignored.\n".toList :=
    Text.closed_literal (by decide)
  have hpointer : Closed (Display.pointer (Text.rendition "33".toList)
      ((Token.invalidPositions tokens).map Int.ofNat) words) :=
    Display.closed_pointer (Text.closed_rendition (by decide)) _ hwords
  exact Message.closed_banner (Text.escape_not_mem_literal (by decide))
    ((hcount.append htext).append hpointer)

theorem closedWith_handle {incident : Incident}
    (hmessage : ∀ message, incident = .diagnosed (.noInput message) → Closed message) :
    ∀ m ∈ (s.handle words incident).messages, m.ClosedWith words := by
  intro m hm
  cases incident with
  | diagnosed d =>
    cases List.mem_singleton.mp hm
    refine Message.closedWith_report fun hwords => Diagnosis.closed_explanation hwords ?_
    rintro message rfl
    exact hmessage message rfl
  | unexplained message => cases hm

/-- The warning and the trace come first, then the result or what is said about an error. -/
theorem messages_evaluateTokens (words : List Text) (tokens : List Token) :
    ∃ last, (s.evaluateTokens words tokens).messages =
        s.warning words tokens ++
          (Stack.run [] s.settings.verbosity (tokens.map .token)).trace.map
            (fun moment => ⟨.report, moment.display⟩) ++ last ∧
      ((∃ v : Binary32, last = [⟨.result, NumberStyle.plain.write v⟩]) ∨
        ∃ (s' : Session) (e : EvaluationError), last = (s'.handle words e.incident).messages) := by
  simp only [evaluateTokens]
  split
  · exact ⟨_, rfl, .inl ⟨_, rfl⟩⟩
  · exact ⟨_, rfl, .inr ⟨_, _, rfl⟩⟩

theorem closedWith_evaluateTokens (tokens : List Token) :
    ∀ m ∈ (s.evaluateTokens words tokens).messages, m.ClosedWith words := by
  obtain ⟨last, hmessages, hlast⟩ := s.messages_evaluateTokens words tokens
  rw [hmessages, List.forall_mem_append, List.forall_mem_append]
  refine ⟨⟨s.closedWith_warning words tokens, ?_⟩, ?_⟩
  · refine List.forall_mem_map.mpr fun moment hmoment => ?_
    exact Message.closedWith_report fun _ => Stack.closed_trace _ _ _ hmoment
  · rcases hlast with ⟨v, rfl⟩ | ⟨s', e, rfl⟩
    · refine List.forall_mem_singleton.mpr fun _ => ?_
      exact Text.closed_of_not_mem (NumberStyle.escape_not_mem_plain v)
    · refine s'.closedWith_handle fun message heq => ?_
      cases e <;> cases heq

theorem printable_seconds (milliseconds : Nat) : Text.Printable (seconds milliseconds) := by
  have hwhole := Text.printable_ofNat (milliseconds / 1000)
  have hplaces : Text.Printable ((Text.ofNat (milliseconds % 1000)).leftpad 3 '0') :=
    (Text.printable_ofNat _).leftpad 3 rfl
  exact (hwhole.append (hplaces.cons rfl)).append (by decide)

theorem closed_statisticsLine {name value : Text} (hname : escape ∉ name)
    (hvalue : escape ∉ value) : Closed (statisticsLine name value).text :=
  (((Text.closed_of_not_mem hname).append (.other (by decide)
    (Text.closed_rendition (by decide)))).append (Text.closed_of_not_mem hvalue)).append
    Text.closed_plainRendition

theorem closed_statistics (milliseconds : Nat) :
    ∀ m ∈ s.statistics milliseconds, Closed m.text := by
  intro m hm
  obtain ⟨-, hm⟩ := List.mem_ite_nil_right.mp hm
  simp only [List.mem_cons, List.not_mem_nil, or_false] at hm
  rcases hm with rfl | rfl | rfl
  · have htitle : Closed " STATISTICS. ".toList := Text.closed_literal (by decide)
    have hcolour : Closed (Text.rendition "97".toList ++ Text.rendition "48;5;30".toList) :=
      (Text.closed_rendition (by decide)).append (Text.closed_rendition (by decide))
    exact ((Closed.other (by decide) hcolour).append htitle).append Text.closed_plainRendition
  · exact closed_statisticsLine (Text.escape_not_mem_literal (by decide))
      (Text.printable_ofNat _).grouped.escape_not_mem
  · exact closed_statisticsLine (Text.escape_not_mem_literal (by decide))
      (printable_seconds milliseconds).escape_not_mem

@[simp] theorem settings_handle (incident : Incident) :
    (s.handle words incident).session.settings = s.settings := by
  cases incident <;> rfl

@[simp] theorem settings_evaluateTokens (tokens : List Token) :
    (s.evaluateTokens words tokens).session.settings = s.settings := by
  simp only [evaluateTokens]
  split
  · rfl
  · exact settings_handle _ _

end Session

end ReversePolish
