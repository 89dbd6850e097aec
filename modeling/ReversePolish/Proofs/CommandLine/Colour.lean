import ReversePolish.Proofs.CommandLine.Flags
import ReversePolish.Proofs.CommandLine.Plain
import ReversePolish.Proofs.Session.Colour

/-! Asking for plain output changes nothing but colour. The command does the same, exits
with the same code, and writes to each channel what it would write to a terminal, stripped
as one text. Where it does not write to terminals it writes this anyway. -/

namespace ReversePolish

open Text (escape stripControls)
open Arguments (Asks)

theorem Settings.ofFlags_plain (flags : List Flag) :
    ofFlags (.plain :: flags) = (ofFlags flags).inPlain := by
  simp [ofFlags, inPlain]

namespace Command

/-- The argument that asks for plain output. -/
def plainArgument : Text := "-p".toList

/-- The same request, but for plain output. -/
def Request.inPlain : Request → Request
  | evaluate settings words => evaluate settings.inPlain words
  | evaluateInput settings => evaluateInput settings.inPlain
  | misuse e => misuse e
  | help => help

/-- What the second run writes is what the first writes to terminals, stripped as a whole,
and what the first writes elsewhere. -/
inductive StripsTo : Except LiteralError Answer → Except LiteralError Answer → Prop
  | error (e : LiteralError) : StripsTo (.error e) (.error e)
  | answer (coloured plain : Answer) (hexit : plain.exitCode = coloured.exitCode)
    (hterminal : ∀ milliseconds terminal channel, plain.transcript milliseconds terminal channel =
      stripControls (coloured.transcript milliseconds true channel))
    (hother : ∀ milliseconds terminal channel, coloured.transcript milliseconds false channel =
      plain.transcript milliseconds terminal channel) : StripsTo (.ok coloured) (.ok plain)

variable {args words : List Text} {settings : Settings} {input : StandardInput}

section Arguments

theorem plainArgument_ne_terminator : plainArgument ≠ Arguments.terminator := by decide

theorem ofList_plain (args : List Text) :
    Arguments.ofList (plainArgument :: args) =
      (Arguments.ofList args).map fun read => ⟨.plain :: read.flags, read.words⟩ := by
  have hfirst : Arguments.ofArgument plainArgument = .ok ⟨[.plain], []⟩ := rfl
  rw [Arguments.ofList_cons plainArgument_ne_terminator, hfirst]
  cases Arguments.ofList args with
  | error e => rfl
  | ok read => rfl

theorem Request.ofArguments_plain (args : List Text) :
    ofArguments (plainArgument :: args) = (ofArguments args).inPlain := by
  unfold ofArguments
  rw [ofList_plain]
  cases Arguments.ofList args with
  | error e => rfl
  | ok read =>
    have hhelp : (Flag.plain :: read.flags).contains .help = read.flags.contains .help := rfl
    simp only [Except.map, hhelp, Settings.ofFlags_plain]
    split_ifs <;> rfl

/-- What a request writes in colour takes its colour from settings that are not plain, and
a message of the command's own has none. -/
def Request.IsColoured : Request → Prop
  | misuse e => escape ∉ e.message
  | help => True
  | evaluate settings _ | evaluateInput settings => settings.plain = false

theorem Request.isColoured_ofArguments (h : ¬Asks .plain args) :
    (ofArguments args).IsColoured := by
  unfold ofArguments
  cases hread : Arguments.ofList args with
  | error e =>
    obtain ⟨flag, rfl⟩ := Arguments.exists_flag_of_ofList_error hread
    exact escape_not_mem_message flag
  | ok read =>
    have hcoloured : (Settings.ofFlags read.flags).plain = false := by
      have hmem : Flag.plain ∉ read.flags := fun hmem => h ((Arguments.mem_flags_iff hread).mp hmem)
      simpa [Settings.ofFlags] using hmem
    dsimp only
    split_ifs
    · trivial
    · exact hcoloured
    · exact hcoloured

end Arguments

section Answer

theorem stripsTo_ofMessage (exitCode : Nat) (m : Message) (h : escape ∉ m.text) :
    StripsTo (.ok (.ofMessage exitCode m)) (.ok (.ofMessage exitCode m)) := by
  have hstripped : ∀ milliseconds terminal channel,
      (Answer.ofMessage exitCode m).transcript milliseconds terminal channel =
        Message.transcript false channel [m] := by
    intro milliseconds terminal channel
    have hmessages : ∀ m' ∈ [m], escape ∉ m'.text := List.forall_mem_singleton.mpr h
    exact (Message.transcript_of_not_mem hmessages _ _).trans
      (Message.transcript_of_not_mem hmessages _ _).symm
  refine .answer _ _ rfl (fun milliseconds terminal channel => ?_)
    (fun milliseconds terminal channel => ?_)
  · rw [hstripped]
    exact Message.transcript_false channel [m]
  · rw [hstripped, hstripped]

theorem stripsTo_ofReply (earlier : List Message) (reply : Reply)
    (h : reply.session.settings.plain = false) :
    StripsTo (.ok (.ofReply earlier reply)) (.ok (.ofReply earlier reply.inPlain)) := by
  have hkeeps : ∀ terminal,
      keepsControls (Answer.ofReply earlier reply).plain terminal = terminal := by
    intro terminal
    rw [keepsControls, Answer.ofReply, h]
    rfl
  refine .answer _ _ rfl (fun milliseconds terminal channel => ?_)
    (fun milliseconds terminal channel => ?_)
  · rw [Answer.transcript, Answer.transcript, hkeeps]
    exact Message.transcript_false channel _
  · rw [Answer.transcript, hkeeps]
    rfl

theorem stripsTo_evaluateWords (h : settings.plain = false) (words : List Text) :
    StripsTo (evaluateWords settings words) (evaluateWords settings.inPlain words) := by
  have hevaluate := (Session.start settings).evaluate_inPlain words
  have hplain : evaluateWords settings.inPlain words =
      ((Session.start settings).inPlain.evaluate words).map (.ofReply []) := rfl
  rw [hplain, hevaluate, evaluateWords, Session.evaluate]
  cases Token.ofWords words with
  | error e => exact .error e
  | ok tokens =>
    refine stripsTo_ofReply [] _ ?_
    rw [Session.settings_evaluateTokens]
    exact h

theorem stripsTo_reportNoInput (h : settings.plain = false) (earlier : List Message)
    (message : Text) :
    StripsTo (.ok (reportNoInput settings earlier message))
      (.ok (reportNoInput settings.inPlain earlier message)) :=
  stripsTo_ofReply earlier ((Session.start settings).handle [] (.diagnosed (.noInput message))) h

theorem Request.stripsTo_answer {request : Request} (h : request.IsColoured)
    (input : StandardInput) : StripsTo (request.answer input) (request.inPlain.answer input) := by
  cases request with
  | misuse e => exact stripsTo_ofMessage 2 ⟨.report, e.message⟩ h
  | help => exact stripsTo_ofMessage 0 (helpOn .result) escape_not_mem_helpText
  | evaluate settings words => exact stripsTo_evaluateWords h words
  | evaluateInput settings =>
    cases input with
    | unavailable => exact stripsTo_reportNoInput h _ _
    | text s =>
      unfold inPlain answer
      dsimp only
      cases wordsOfInput? s with
      | some words => exact stripsTo_evaluateWords h words
      | none => exact stripsTo_reportNoInput h _ _

end Answer

/-- Asked for plain output as well, the command writes to each channel what it writes to
terminals, stripped as a whole, and exits with the same code. -/
theorem run_stripsTo_plain (h : ¬Asks .plain args) (input : StandardInput) :
    StripsTo (run input args) (run input (plainArgument :: args)) := by
  unfold run
  rw [Request.ofArguments_plain]
  exact Request.stripsTo_answer (Request.isColoured_ofArguments h) input

/-- A traced sum with words that leave control sequences unfinished. -/
theorem run_stripsTo_plain_unfinished :
    ¬Asks .plain ["-v".toList, "1".toList, "\x1b[31mx\x1b[".toList, "2\x1b".toList, "+".toList] ∧
      StripsTo
        (run .unavailable
          ["-v".toList, "1".toList, "\x1b[31mx\x1b[".toList, "2\x1b".toList, "+".toList])
        (run .unavailable (plainArgument ::
          ["-v".toList, "1".toList, "\x1b[31mx\x1b[".toList, "2\x1b".toList, "+".toList])) := by
  have hcoloured : ¬Asks .plain
      ["-v".toList, "1".toList, "\x1b[31mx\x1b[".toList, "2\x1b".toList, "+".toList] := by
    intro hasks
    exact absurd ((Arguments.mem_flags_iff rfl).mpr hasks) (by decide)
  exact ⟨hcoloured, run_stripsTo_plain hcoloured .unavailable⟩

end Command

end ReversePolish
