import ReversePolish.Proofs.CommandLine.Arguments
import ReversePolish.Proofs.Session.Plain

/-! Plain output of the command. The result never has a control sequence, whatever the
arguments and the input are, and the reports have none if each evaluated word is closed.
Of other words this cannot be said: a sequence that stands around another one is left
over when the inner one is taken out. -/

namespace ReversePolish.Command

open Text (escape Closed Inert HasControl)

variable {input : StandardInput} {args : List Text} {answer : Answer} {channel : Channel}

/-- The words that a request evaluates, if it evaluates any. -/
def Request.words (input : StandardInput) : Request → List Text
  | evaluate _ words => words
  | evaluateInput _ =>
    match input with
    | .text s => (wordsOfInput? s).getD []
    | .unavailable => []
  | _ => []

/-- What a request has written is plain: a session's by its settings, a message of the
command's own by having no escape. -/
def Request.IsPlain : Request → Prop
  | misuse e => escape ∉ e.message
  | help => True
  | evaluate settings _ | evaluateInput settings => settings.plain

section Message

theorem escape_not_mem_message (flag : Flag) :
    escape ∉ (UsageError.valueForFlag flag.longName).message := by
  cases flag <;> decide

theorem escape_not_mem_helpText : escape ∉ helpText := by
  have hlines : ∀ line ∈ helpLines.map String.toList, escape ∉ line := by
    simp only [helpLines, List.map_cons, List.map_nil, List.forall_mem_cons, List.not_mem_nil,
      false_implies, implies_true, and_true]
    and_intros <;> exact Text.escape_not_mem_literal (by decide)
  intro h
  rcases Text.mem_intercalate h with heq | ⟨line, hline, hmem⟩
  · cases heq
  · exact hlines line hline hmem

theorem escape_not_mem_nothingSupplied : escape ∉ nothingSupplied :=
  Text.escape_not_mem_literal (by decide)

theorem escape_not_mem_blankInput : escape ∉ blankInput :=
  Text.escape_not_mem_literal (by decide)

end Message

theorem Request.isPlain_ofArguments
    (h : ∀ read, Arguments.ofList args = .ok read → .plain ∈ read.flags) :
    (Request.ofArguments args).IsPlain := by
  unfold Request.ofArguments
  cases hread : Arguments.ofList args with
  | error e =>
    obtain ⟨flag, rfl⟩ := Arguments.exists_flag_of_ofList_error hread
    exact escape_not_mem_message flag
  | ok read =>
    have hplain : (Settings.ofFlags read.flags).plain := List.contains_iff_mem.mpr (h read hread)
    dsimp only
    split_ifs
    · trivial
    · exact hplain
    · exact hplain

section Answer

theorem inert_ofMessage {m : Message} (h : escape ∉ m.text) (exitCode milliseconds : Nat)
    (terminal : Bool) (channel : Channel) :
    Inert ((Answer.ofMessage exitCode m).transcript milliseconds terminal channel) := by
  refine Message.inert_transcript fun m' hm' _ => ?_
  cases List.mem_singleton.mp hm'
  exact Message.inert_written_of_not_mem h _

theorem inert_ofReply {earlier : List Message} {reply : Reply} {words : List Text}
    (hplain : reply.session.settings.plain) (hearlier : ∀ m ∈ earlier, Closed m.text)
    (hmessages : ∀ m ∈ reply.messages, m.ClosedWith words)
    (hwords : channel = .result ∨ ∀ word ∈ words, Closed word) (milliseconds : Nat)
    (terminal : Bool) :
    Inert ((Answer.ofReply earlier reply).transcript milliseconds terminal channel) := by
  have hkeeps : keepsControls (Answer.ofReply earlier reply).plain terminal = false := by
    rw [keepsControls, Answer.ofReply, hplain]
    rfl
  rw [Answer.transcript, hkeeps]
  refine Message.inert_transcript fun m hm hchannel => Message.inert_written ?_
  rcases List.mem_append.mp hm with hm | hm
  · rcases List.mem_append.mp hm with hm | hm
    · exact hearlier m hm
    · exact hmessages m hm (hchannel ▸ hwords)
  · exact reply.session.closed_statistics milliseconds m hm

theorem inert_evaluateWords {settings : Settings} {words : List Text} (hplain : settings.plain)
    (h : evaluateWords settings words = .ok answer)
    (hwords : channel = .result ∨ ∀ word ∈ words, Closed word) (milliseconds : Nat)
    (terminal : Bool) : Inert (answer.transcript milliseconds terminal channel) := by
  unfold evaluateWords Session.evaluate at h
  cases htokens : Token.ofWords words with
  | error e =>
    rw [htokens] at h
    cases h
  | ok tokens =>
    rw [htokens] at h
    cases h
    refine inert_ofReply ?_ (List.forall_mem_nil _) ?_ hwords milliseconds terminal
    · rw [Session.settings_evaluateTokens]
      exact hplain
    · exact Session.closedWith_evaluateTokens _ tokens

theorem inert_reportNoInput {settings : Settings} {earlier : List Message} {message : Text}
    (hplain : settings.plain) (hearlier : ∀ m ∈ earlier, Closed m.text)
    (hmessage : escape ∉ message) (milliseconds : Nat) (terminal : Bool) (channel : Channel) :
    Inert ((reportNoInput settings earlier message).transcript milliseconds terminal channel) := by
  have hwords : channel = .result ∨ ∀ word ∈ ([] : List Text), Closed word :=
    .inr (List.forall_mem_nil _)
  refine inert_ofReply hplain hearlier (Session.closedWith_handle _ ?_) hwords _ _
  rintro message' ⟨rfl⟩
  exact Text.closed_of_not_mem hmessage

theorem Request.inert_answer {request : Request} (hplain : request.IsPlain)
    (h : request.answer input = .ok answer)
    (hwords : channel = .result ∨ ∀ word ∈ request.words input, Closed word) (milliseconds : Nat)
    (terminal : Bool) : Inert (answer.transcript milliseconds terminal channel) := by
  cases request with
  | misuse e =>
    cases h
    have hmessage : escape ∉ (Message.mk .report e.message).text := hplain
    exact inert_ofMessage hmessage 2 milliseconds terminal channel
  | help =>
    cases h
    have hmessage : escape ∉ (helpOn .result).text := escape_not_mem_helpText
    exact inert_ofMessage hmessage 0 milliseconds terminal channel
  | evaluate settings words => exact inert_evaluateWords hplain h hwords milliseconds terminal
  | evaluateInput settings =>
    cases input with
    | unavailable =>
      cases h
      have hhelp : ∀ m ∈ [helpOn .report], Closed m.text :=
        List.forall_mem_singleton.mpr (Text.closed_of_not_mem escape_not_mem_helpText)
      exact inert_reportNoInput hplain hhelp escape_not_mem_nothingSupplied milliseconds terminal _
    | text s =>
      simp only [Request.answer] at h
      simp only [Request.words] at hwords
      cases hline : wordsOfInput? s with
      | some words =>
        rw [hline] at h hwords
        exact inert_evaluateWords hplain h hwords milliseconds terminal
      | none =>
        rw [hline] at h
        cases h
        exact inert_reportNoInput hplain (List.forall_mem_nil _) escape_not_mem_blankInput
          milliseconds terminal _

end Answer

/-- Where plain output is asked for, the result has no control sequence, and the reports
have none if the evaluated words are closed. -/
theorem not_hasControl_of_plain (hrun : run input args = .ok answer)
    (hplain : ∀ read, Arguments.ofList args = .ok read → .plain ∈ read.flags) :
    (∀ milliseconds terminal, ¬HasControl (answer.transcript milliseconds terminal .result)) ∧
      ((∀ word ∈ (Request.ofArguments args).words input, Closed word) →
        ∀ milliseconds terminal,
          ¬HasControl (answer.transcript milliseconds terminal .report)) := by
  have hrequest : (Request.ofArguments args).IsPlain := Request.isPlain_ofArguments hplain
  constructor
  · intro milliseconds terminal
    exact (Request.inert_answer hrequest hrun (.inl rfl) milliseconds terminal).not_hasControl
  · intro hwords milliseconds terminal
    exact (Request.inert_answer hrequest hrun (.inr hwords) milliseconds terminal).not_hasControl

/-- A word in colour and one with an escape that starts no control sequence. -/
theorem not_hasControl_of_plain_coloured :
    ∃ answer, run .unavailable ["1".toList, "\x1b[31mx\x1b[0m".toList, "\x1b(B".toList,
        "--plain".toList] = .ok answer ∧
      ∀ milliseconds terminal, ¬HasControl (answer.transcript milliseconds terminal .report) := by
  obtain ⟨answer, hrun⟩ : ∃ answer, run .unavailable ["1".toList, "\x1b[31mx\x1b[0m".toList,
    "\x1b(B".toList, "--plain".toList] = .ok answer := ⟨_, rfl⟩
  refine ⟨answer, hrun, (not_hasControl_of_plain hrun ?_).2 ?_⟩
  · rintro read ⟨rfl⟩
    decide
  · have hred : Text.ControlSequence (Text.rendition "31".toList) :=
      Text.controlSequence_rendition (by decide)
    refine List.forall_mem_cons.mpr ⟨.other (by decide) .nil, List.forall_mem_cons.mpr ⟨?_, ?_⟩⟩
    · exact .sequence hred (.other (by decide) Text.closed_plainRendition)
    · exact List.forall_mem_singleton.mpr
        (.lone (by decide) (by decide) (.other (by decide) .nil))

/-- The code of a colour is left over when the code that it stands around is taken out. -/
theorem hasControl_of_plain_nested :
    ∃ answer, run .unavailable ["-p".toList, "\x1b\x1b[0m[31m".toList, "1".toList] = .ok answer ∧
      answer.plain ∧ HasControl (answer.transcript 0 false .report) := by
  let before : Text := Message.banner "WARNING.".toList
    ("1 invalid token(s) will be ignored.\n".toList ++ Text.rendition "33".toList)
  let after : Text := Text.plainRendition ++ " 1\n^^^^^^^^^──".toList
  obtain ⟨answer, hrun, hplain, report, hreport, htext⟩ :
      ∃ answer, run .unavailable ["-p".toList, "\x1b\x1b[0m[31m".toList, "1".toList] = .ok answer ∧
        answer.plain ∧ ∃ report : Message,
          answer.transcript 0 false .report = report.written false ++ [] ∧
          report.text = before ++ escape :: (Text.plainRendition ++ ("[31m".toList ++ after)) :=
    ⟨_, rfl, rfl, _, rfl, rfl⟩
  refine ⟨answer, hrun, hplain, ?_⟩
  have hbefore : Closed before :=
    Message.closed_banner (Text.escape_not_mem_literal (by decide))
      ((Text.closed_literal (by decide)).append (Text.closed_rendition (by decide)))
  have hreset : Text.ControlSequence Text.plainRendition :=
    Text.controlSequence_rendition (by decide)
  have hred : Text.ControlSequence (escape :: "[31m".toList) :=
    @Text.controlSequence_rendition "31".toList (by decide)
  have hleft := Text.hasControl_stripControls_nested hbefore hreset hred (after ++ ['\n'])
  have hwritten : report.written false = Text.stripControls (report.text ++ ['\n']) := rfl
  rw [hreport, List.append_nil, hwritten, htext]
  simpa only [List.append_assoc, List.cons_append] using hleft

end ReversePolish.Command
