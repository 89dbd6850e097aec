import ReversePolish.CommandLine.Flag
import ReversePolish.CommandLine.Help
import ReversePolish.Session.Basic

/-! The command: from arguments and standard input to what it writes and its exit code.
A flag that was given a value is answered before all else, then a request for help; then
the words, or one line of standard input if there are none, are evaluated in a session. -/

namespace ReversePolish

/-- Standard input as the command finds it. -/
inductive StandardInput
  /-- A terminal, or nothing at all. -/
  | unavailable
  | text (s : Text)

namespace Settings

def ofFlags (flags : List Flag) : Settings where
  verbosity := flags.count .verbose
  statistics := flags.contains .statistics
  plain := flags.contains .plain
  quiet := flags.contains .quiet

end Settings

namespace Command

/-- What the arguments ask for. -/
inductive Request
  | misuse (error : UsageError)
  | help
  | evaluate (settings : Settings) (words : List Text)
  /-- Without words among the arguments, a line of standard input supplies them. -/
  | evaluateInput (settings : Settings)

def Request.ofArguments (args : List Text) : Request :=
  match Arguments.ofList args with
  | .error e => .misuse e
  | .ok ⟨flags, words⟩ =>
    if flags.contains .help then .help
    else if words.isEmpty then .evaluateInput (.ofFlags flags)
    else .evaluate (.ofFlags flags) words

/-- What the command writes and how it exits. The closing report tells the time that was
taken, in milliseconds. -/
structure Answer where
  exitCode : Nat
  plain : Bool
  messages : List Message
  closing : Nat → List Message

namespace Answer

def ofMessage (exitCode : Nat) (m : Message) : Answer := ⟨exitCode, false, [m], fun _ => []⟩

/-- The answer that ends with a session's reply. -/
def ofReply (earlier : List Message) (r : Reply) : Answer where
  exitCode := r.session.exitCode
  plain := r.session.settings.plain
  messages := earlier ++ r.messages
  closing := r.session.statistics

/-- All that is written to one channel, which may be a terminal. -/
def transcript (milliseconds : Nat) (terminal : Bool) (channel : Channel) (a : Answer) : Text :=
  Message.transcript (keepsControls a.plain terminal) channel (a.messages ++ a.closing milliseconds)

end Answer

/-- The words of the first line, if it is not blank. -/
def wordsOfInput? (s : Text) : Option (List Text) :=
  let line := Text.firstLine s
  if line.isBlank then none else some (Text.splitWords line)

def nothingSupplied : Text :=
  "Supply an expression as arguments, or pipe one line into standard input.".toList

def blankInput : Text := "Standard input did not contain an expression.".toList

def helpOn (channel : Channel) : Message := ⟨channel, helpText⟩

def evaluateWords (settings : Settings) (words : List Text) : Except LiteralError Answer :=
  ((Session.start settings).evaluate words).map (Answer.ofReply [])

def reportNoInput (settings : Settings) (earlier : List Message) (message : Text) : Answer :=
  Answer.ofReply earlier ((Session.start settings).handle [] (.diagnosed (.noInput message)))

/-- The answer to a request. Where no line could be read, help precedes the report. -/
def Request.answer (input : StandardInput) : Request → Except LiteralError Answer
  | misuse e => .ok (.ofMessage 2 ⟨.report, e.message⟩)
  | help => .ok (.ofMessage 0 (helpOn .result))
  | evaluate settings words => evaluateWords settings words
  | evaluateInput settings =>
    match input with
    | .unavailable => .ok (reportNoInput settings [helpOn .report] nothingSupplied)
    | .text s =>
      match wordsOfInput? s with
      | some words => evaluateWords settings words
      | none => .ok (reportNoInput settings [] blankInput)

/-- The command's answer to its arguments and standard input. -/
def run (input : StandardInput) (args : List Text) : Except LiteralError Answer :=
  (Request.ofArguments args).answer input

end Command

end ReversePolish
