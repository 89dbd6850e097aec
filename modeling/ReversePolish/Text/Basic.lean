/-! Text as a list of code points, which is what all lengths, widths and positions
count, and words: the pieces of a line between single spaces. -/

namespace ReversePolish

abbrev Text := List Char

namespace Text

def space : Char := ' '

/-- The words with single spaces between them. -/
def joinWords (words : List Text) : Text := [space].intercalate words

def isLineEnd (c : Char) : Bool := c == '\r' || c == '\n'

/-- The text without the line ends that close it. -/
def dropLineEnds (s : Text) : Text := (s.reverse.dropWhile isLineEnd).reverse

/-- The words of a line. Each space separates two of them, so doubled spaces give empty words. -/
def splitWords (line : Text) : List Text := (dropLineEnds line).splitOn space

/-- The text up to its first line end. -/
def firstLine (s : Text) : Text := s.takeWhile (!isLineEnd ·)

/-- White space of every script, and the separators among the control characters. -/
def isBlankChar (c : Char) : Bool :=
  let n := c.toNat
  0x09 ≤ n && n ≤ 0x0d || 0x1c ≤ n && n ≤ 0x20 || n == 0x85 || n == 0xa0 || n == 0x1680 ||
    0x2000 ≤ n && n ≤ 0x200a || n == 0x2028 || n == 0x2029 || n == 0x202f || n == 0x205f ||
    n == 0x3000

def isBlank (s : Text) : Bool := s.all isBlankChar

/-- What follows the index; a negative index counts from the end. -/
def dropTo (index : Int) (s : Text) : Text :=
  if index < 0 then s.drop (s.length - index.natAbs) else s.drop index.toNat

/-- What precedes the index; a negative index counts from the end. -/
def takeTo (index : Int) (s : Text) : Text :=
  if index < 0 then s.take (s.length - index.natAbs) else s.take index.toNat

def padLeft (width : Nat) (s : Text) : Text := s.leftpad width space

def padRight (width : Nat) (s : Text) : Text := s.rightpad width space

def ofNat (n : Nat) : Text := Nat.toDigits 10 n

def ofInt (n : Int) : Text := if n < 0 then '-' :: ofNat n.natAbs else ofNat n.natAbs

/-- Decimal digits in groups of three from the right. -/
def grouped (digits : Text) : Text :=
  if digits.length ≤ 3 then digits
  else grouped (digits.take (digits.length - 3)) ++ ',' :: digits.drop (digits.length - 3)
termination_by digits.length
decreasing_by simp; omega

theorem length_padLeft (width : Nat) (s : Text) : (padLeft width s).length = max width s.length :=
  List.length_leftpad ..

theorem length_padRight (width : Nat) (s : Text) :
    (padRight width s).length = max width s.length :=
  List.length_rightpad ..

theorem splitWords_ne_nil (line : Text) : splitWords line ≠ [] := List.splitOn_ne_nil _ _

theorem joinWords_splitWords (line : Text) : joinWords (splitWords line) = dropLineEnds line :=
  List.intercalate_splitOn _

end Text

end ReversePolish
