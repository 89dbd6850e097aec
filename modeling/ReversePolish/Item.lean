import ReversePolish.Text.Quoted
import ReversePolish.Token

/-! The items of a program: tokens, and bare texts that no reader has classified. A
bare text can be shown, but it has no effect to apply. -/

namespace ReversePolish

inductive Item
  | token (token : Token)
  | bare (text : Text)
  deriving DecidableEq

namespace Item

def isOperator : Item → Bool
  | token t => t.isOperator
  | bare _ => false

/-- The item as its program writes it; a bare text stands between quotes. -/
def source : Item → Text
  | token t => t.source
  | bare s => s.quoted

/-- The item as it is shown to a reader: a number by its own shortest digits. -/
def display : Item → Text
  | token (.number v) => NumberStyle.plain.write v
  | item => item.source

end Item

end ReversePolish
