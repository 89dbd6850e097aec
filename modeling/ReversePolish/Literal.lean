import ReversePolish.Decimal.Correction
import ReversePolish.Text.Letters

/-! Decimal literals: an optional sign, then a name of infinity, the name of the
value that is not a number, or digits with an optional point and an optional power
of ten. Reading a literal rounds it to double precision, that to single precision, and
corrects the result with the exact value. -/

namespace ReversePolish

open Binary

/-- A decimal as it was written: the digits before and after the point, and those
of the power of ten. -/
structure WrittenDecimal where
  negative : Bool
  whole : Text
  fraction : Text
  exponentNegative : Bool
  exponent : Text

inductive Literal
  | nan
  | infinity (negative : Bool)
  | decimal (written : WrittenDecimal)

/-- Why a literal has no value. -/
inductive LiteralError
  /-- A name of infinity in letters that are forms of its own but not among them. -/
  | foreignLetters (word : Text)
  /-- A group of more digits than are converted. -/
  | tooManyDigits (count : Nat)
  deriving DecidableEq

namespace LiteralError

/-- The most digits of a group that are converted. -/
def digitLimit : Nat := 4300

def message : LiteralError → Text
  | foreignLetters word => "could not convert string to float: '".toList ++ word ++ ['\'']
  | tooManyDigits count =>
    "Exceeds the limit (".toList ++ Text.ofNat digitLimit ++
      " digits) for integer string conversion: value has ".toList ++ Text.ofNat count ++
      " digits; use sys.set_int_max_str_digits() to increase the limit".toList

end LiteralError

namespace WrittenDecimal

/-- The groups of digits, in the order in which they are converted. -/
def groups (w : WrittenDecimal) : List Text := [w.whole, w.fraction, w.exponent]

def toDecimal (w : WrittenDecimal) : Decimal where
  coefficient := Nat.ofDigitChars 10 (w.whole ++ w.fraction) 0
  exponent :=
    let power := Nat.ofDigitChars 10 w.exponent 0
    (if w.exponentNegative then -power else power : Int) - w.fraction.length

/-- Whether double precision tells the number from zero and puts it below `2 ^ 128`.
The digits of the others are never converted. -/
def isConverted (w : WrittenDecimal) : Bool :=
  let wide : Magnitude .double := w.toDecimal.nearest
  !wide.isZero && wide.units < Nat.pow 2 128 * Format.double.one

/-- The number in double precision, rounded once more. -/
def guess (w : WrittenDecimal) : Binary32 :=
  let wide : Binary64 := .signed w.negative w.toDecimal.nearest
  wide.convert

def overlong (s : Text) : Bool := LiteralError.digitLimit < s.length

/-- The number in single precision. Only digits that are converted can correct the guess. -/
def rounded (w : WrittenDecimal) : Binary32 :=
  if w.isConverted then w.toDecimal.correct w.negative w.guess else w.guess

/-- The single-precision value, or the first group with too many digits. -/
def value (w : WrittenDecimal) : Except LiteralError Binary32 :=
  match w.groups.find? overlong, w.isConverted with
  | some group, true => .error (.tooManyDigits group.length)
  | _, _ => .ok w.rounded

end WrittenDecimal

namespace Literal

/-- The sign in front of a text, and what follows it. -/
def splitSign : Text → Bool × Text
  | '-' :: rest => (true, rest)
  | '+' :: rest => (false, rest)
  | s => (false, s)

def splitDigits (s : Text) : Text × Text := (s.takeWhile Char.isDigit, s.dropWhile Char.isDigit)

/-- The digits after a point, if there is one, and what follows them. -/
def splitFraction : Text → Text × Text
  | '.' :: rest => splitDigits rest
  | s => ([], s)

/-- The sign and the digits of a power of ten that fills the text. -/
def exponentOf? : Text → Option (Bool × Text)
  | [] => some (false, [])
  | mark :: rest =>
    let (negative, digits) := splitSign rest
    if (mark == 'e' || mark == 'E') && !digits.isEmpty && digits.all Char.isDigit then
      some (negative, digits)
    else none

/-- The decimal that the unsigned text writes. At least one digit stands beside the point. -/
def decimalOf? (negative : Bool) (s : Text) : Option WrittenDecimal :=
  let (whole, afterWhole) := splitDigits s
  let (fraction, afterFraction) := splitFraction afterWhole
  if whole.isEmpty && fraction.isEmpty then none
  else (exponentOf? afterFraction).map fun (exponentNegative, exponent) =>
    ⟨negative, whole, fraction, exponentNegative, exponent⟩

/-- The literal that the whole word writes. -/
def ofWord? (word : Text) : Option Literal :=
  let (negative, body) := splitSign word
  if body.spells "inf".toList || body.spells "infinity".toList then some (.infinity negative)
  else if body.spells "nan".toList then some .nan
  else (decimalOf? negative body).map .decimal

/-- The value of the literal that `word` writes. -/
def value (word : Text) : Literal → Except LiteralError Binary32
  | nan => .ok .nan
  | infinity negative => if word.isAscii then .ok (.infinity negative) else .error (.foreignLetters word)
  | decimal w => w.value

end Literal

end ReversePolish
