import ReversePolish.Proofs.Text.Control
import ReversePolish.Session.Basic

/-! Plain output and colour. What is written without control sequences is what is written
with them, stripped as a whole, because each message ends with a line end. Whether output
is plain is looked at only where it is written: a session does the same either way. -/

namespace ReversePolish

namespace Message

theorem written_false_eq (m : Message) : m.written false = m.text.stripControls ++ ['\n'] := by
  have hline := Text.stripControls_append_barrier Text.isBarrier_newline m.text []
  rwa [Text.stripControls_nil] at hline

/-- Messages are stripped one by one or all together. -/
theorem transcript_false (channel : Channel) (messages : List Message) :
    transcript false channel messages = (transcript true channel messages).stripControls := by
  unfold transcript
  generalize messages.filter (·.channel == channel) = messages
  induction messages with
  | nil => exact Text.stripControls_nil.symm
  | cons m messages ih =>
    rw [List.flatMap_cons, List.flatMap_cons, ih, written_false_eq, written, if_pos rfl,
      List.append_assoc, List.singleton_append, List.append_assoc, List.singleton_append,
      Text.stripControls_append_barrier Text.isBarrier_newline]

theorem written_of_not_mem {m : Message} (h : Text.escape ∉ m.text) (controls : Bool) :
    m.written controls = m.text ++ ['\n'] := by
  cases controls with
  | true => rfl
  | false => rw [written_false_eq, Text.stripControls_of_not_mem h]

theorem transcript_of_not_mem {messages : List Message} (h : ∀ m ∈ messages, Text.escape ∉ m.text)
    (controls : Bool) (channel : Channel) :
    transcript controls channel messages =
      (messages.filter (·.channel == channel)).flatMap fun m => m.text ++ ['\n'] :=
  List.flatMap_congr fun m hm => written_of_not_mem (h m (List.mem_of_mem_filter hm)) controls

end Message

/-- The same settings, but for plain output. -/
def Settings.inPlain (s : Settings) : Settings := { s with plain := true }

def Session.inPlain (s : Session) : Session := { s with settings := s.settings.inPlain }

def Reply.inPlain (r : Reply) : Reply := { r with session := r.session.inPlain }

namespace Session

variable (s : Session)

theorem evaluateTokens_inPlain (words : List Text) (tokens : List Token) :
    s.inPlain.evaluateTokens words tokens = (s.evaluateTokens words tokens).inPlain := by
  have hrun : s.inPlain.settings.verbosity = s.settings.verbosity := rfl
  simp only [evaluateTokens, hrun]
  cases (Stack.run [] s.settings.verbosity (tokens.map .token)).outcome with
  | ok v => rfl
  | error e => cases e <;> rfl

theorem evaluate_inPlain (words : List Text) :
    s.inPlain.evaluate words = (s.evaluate words).map Reply.inPlain := by
  unfold evaluate
  cases Token.ofWords words with
  | ok tokens => exact congrArg Except.ok (s.evaluateTokens_inPlain words tokens)
  | error e => rfl

end Session

end ReversePolish
