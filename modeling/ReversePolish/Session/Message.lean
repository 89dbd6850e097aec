import ReversePolish.Display.Marker
import ReversePolish.Display.Cell

/-! What a session writes: messages of one or more lines, each either the result or a
report about the session. Control sequences are written for terminals only. -/

namespace ReversePolish

inductive Channel
  | result
  | report
  deriving DecidableEq

structure Message where
  channel : Channel
  text : Text

namespace Message

/-- The message with its line end, as it is written with or without control sequences. -/
def written (controls : Bool) (m : Message) : Text :=
  let line := m.text ++ ['\n']
  if controls then line else line.stripControls

/-- All that the messages write to one channel. -/
def transcript (controls : Bool) (channel : Channel) (messages : List Message) : Text :=
  (messages.filter (·.channel == channel)).flatMap (written controls)

/-- A coloured title and the text that belongs to it. -/
def banner (title detail : Text) : Text :=
  Text.rendition "30;43".toList ++ ' ' :: title ++ ' ' :: Text.plainRendition ++ ' ' :: detail

end Message

/-- Whether control sequences are written: never in plain output, else on terminals. -/
def keepsControls (plain terminal : Bool) : Bool := !plain && terminal

end ReversePolish
