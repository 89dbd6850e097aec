import ReversePolish.Text.Basic
import ReversePolish.Text.Printable

/-! Quoted text: a bare text between quotes, on one line, with every character that
cannot be shown written as its code. -/

namespace ReversePolish.Text

/-- The double quote if the text holds a single quote and no double one. -/
def quoteMark (s : Text) : Char := if s.contains '\'' && !s.contains '"' then '"' else '\''

/-- The code of a character in two, four or eight hexadecimal digits. -/
def codeEscape (c : Char) : Text :=
  let digits := Nat.toDigits 16 c.toNat
  if digits.length ≤ 2 then '\\' :: 'x' :: digits.leftpad 2 '0'
  else if digits.length ≤ 4 then '\\' :: 'u' :: digits.leftpad 4 '0'
  else '\\' :: 'U' :: digits.leftpad 8 '0'

def escapeChar (mark c : Char) : Text :=
  if c == '\\' || c == mark then ['\\', c]
  else if c == '\n' then "\\n".toList
  else if c == '\r' then "\\r".toList
  else if c == '\t' then "\\t".toList
  else if isPrintable c then [c]
  else codeEscape c

def quoted (s : Text) : Text :=
  let mark := quoteMark s
  mark :: s.flatMap (escapeChar mark) ++ [mark]

end ReversePolish.Text
