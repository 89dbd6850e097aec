import ReversePolish.Text.Basic

/-! Letters in any case. A name in small letters is spelled by every word whose
characters are forms of its own, position by position. -/

namespace ReversePolish.Text

/-- Whether `c` is a form of the small letter or other character `p`. The dotted
capital and the dotless small i are forms of i, and the long s is a form of s. -/
def isFormOf (c p : Char) : Bool :=
  c.toLower == p || p == 'i' && (c == 'İ' || c == 'ı') || p == 's' && c == 'ſ'

def spells (word name : Text) : Bool := word.isEqv name isFormOf

def isAscii (s : Text) : Bool := s.all (·.toNat < 128)

end ReversePolish.Text
