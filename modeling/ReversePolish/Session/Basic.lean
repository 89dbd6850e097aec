import ReversePolish.Session.Diagnosis

/-! Sessions: expressions are evaluated one after the other under fixed settings. A
session remembers how many steps it counted and whether anything failed, and answers
each request with the messages to write. -/

namespace ReversePolish

/-- What a session shows besides results and diagnoses, and how. -/
structure Settings where
  verbosity : Int
  statistics : Bool
  plain : Bool
  quiet : Bool

structure Session where
  settings : Settings
  steps : Nat
  failed : Bool

/-- The answer to a request: what the session has become, what it writes, and an error
that it leaves to others. -/
structure Reply where
  session : Session
  messages : List Message
  unexplained : Option Text

namespace Session

def start (settings : Settings) : Session := ⟨settings, 0, false⟩

/-- The warning about invalid tokens, unless there are none or the session is quiet. -/
def warning (s : Session) (words : List Text) (tokens : List Token) : List Message :=
  let invalid := Token.invalidPositions tokens
  if s.settings.quiet || invalid.isEmpty then []
  else
    [⟨.report, Message.banner "WARNING.".toList
      (Text.ofNat invalid.length ++ " invalid token(s) will be ignored.\n".toList ++
        Display.pointer (Text.rendition "33".toList) (invalid.map Int.ofNat) words)⟩]

/-- Explains what went wrong and remembers it. An error without a diagnosis is left
to others, and changes nothing. -/
def handle (s : Session) (words : List Text) : Incident → Reply
  | .diagnosed d => ⟨{ s with failed := true }, [⟨.report, d.explanation words⟩], none⟩
  | .unexplained message => ⟨s, [], some message⟩

/-- Evaluates words that are all tokens: first the warning, then the trace, then the
result or what went wrong. -/
def evaluateTokens (s : Session) (words : List Text) (tokens : List Token) : Reply :=
  let run := Stack.run [] s.settings.verbosity (tokens.map .token)
  let before := s.warning words tokens ++ run.trace.map fun m => ⟨.report, m.display⟩
  let counted := { s with steps := s.steps + run.steps.getD 0 }
  match run.outcome with
  | .ok v => ⟨counted, before ++ [⟨.result, NumberStyle.plain.write v⟩], none⟩
  | .error e =>
    let reply := counted.handle words e.incident
    { reply with messages := before ++ reply.messages }

def evaluate (s : Session) (words : List Text) : Except LiteralError Reply :=
  (Token.ofWords words).map (s.evaluateTokens words)

/-- Milliseconds as seconds with three places. -/
def seconds (milliseconds : Nat) : Text :=
  Text.ofNat (milliseconds / 1000) ++ '.' :: (Text.ofNat (milliseconds % 1000)).leftpad 3 '0' ++ ['s']

def statisticsLine (name value : Text) : Message :=
  ⟨.report, name ++ '\t' :: Text.rendition "97".toList ++ value ++ Text.plainRendition⟩

/-- The closing report of a session that took the given time. -/
def statistics (s : Session) (milliseconds : Nat) : List Message :=
  if s.settings.statistics then
    [⟨.report, '\n' :: Text.rendition "97".toList ++ Text.rendition "48;5;30".toList ++
        " STATISTICS. ".toList ++ Text.plainRendition⟩,
      statisticsLine "step".toList (Text.grouped (Text.ofNat s.steps)),
      statisticsLine "time".toList (seconds milliseconds)]
  else []

def exitCode (s : Session) : Nat := if s.failed then 1 else 0

/-- What a session can be asked for. -/
inductive Request
  | evaluate (words : List Text)
  | warn (words : List Text)
  | handle (words : List Text) (incident : Incident)
  | finish

/-- The reply to a request, where a session that is to finish took the given time. Words
that are no tokens are an error, and then nothing is written. -/
def respond (milliseconds : Nat) (s : Session) : Request → Except LiteralError Reply
  | .evaluate words => s.evaluate words
  | .warn words =>
    (Token.ofWords words).map fun tokens => ⟨s, s.warning words tokens, none⟩
  | .handle words incident => .ok (s.handle words incident)
  | .finish => .ok ⟨s, s.statistics milliseconds, none⟩

end Session

end ReversePolish
