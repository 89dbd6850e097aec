import ReversePolish.Evaluation
import ReversePolish.Text.Control

/-! A moment of a run as one line of two cells: the stack, aligned to the right so
that its top stands next to the separator, and the program to come, aligned to the
left. What does not fit is cut off on the far side. -/

namespace ReversePolish

namespace Display

/-- Why cells cannot be laid out. -/
inductive WidthError
  /-- The digits of the width, whatever its sign, exceed the largest width. -/
  | tooManyDigits
  | negative
  | missing
  deriving DecidableEq

def WidthError.message : WidthError → Text
  | tooManyDigits => "Too many decimal digits in format string".toList
  | negative => "Sign not allowed in string format specifier".toList
  | missing => "'>' not supported between instances of 'int' and 'NoneType'".toList

/-- The largest width that can be asked for, that of a signed word of 64 bits. -/
def largestWidth : Nat := 0x7fffffffffffffff

/-- The width that a number asks for. Its digits are looked at before its sign. -/
def widthOf (n : Int) : Except WidthError Nat :=
  if largestWidth < n.natAbs then .error .tooManyDigits
  else if n < 0 then .error .negative
  else .ok n.toNat

/-- The width of a cell in a trace. -/
def cellWidth : Nat := 72

def emptyMark : Text := ['∅']

/-- The values with single spaces between them, the top of the stack last. -/
def stackText (values : List Binary32) : Text :=
  if values.isEmpty then emptyMark else Text.joinWords (values.map NumberStyle.plain.write)

def programText (program : List Item) : Text :=
  if program.isEmpty then emptyMark else Text.joinWords (program.map Item.display)

/-- The stack's last characters, behind a mark of two if the text is too long. -/
def stackCell (width : Nat) (values : List Binary32) : Text :=
  let s := stackText values
  let shown := if width < s.length then '…' :: ' ' :: Text.dropTo (2 - width) s else s
  Text.padLeft width shown

/-- The program's first characters, before a mark of two if the text is too long. -/
def programCell (width : Nat) (program : List Item) : Text :=
  let s := programText program
  let shown := if width < s.length then Text.takeTo (width - 2) s ++ [' ', '…'] else s
  Text.padRight width shown

def separator : Text := Text.rendition "36".toList ++ " <=> ".toList ++ Text.plainRendition

def cells (width : Nat) (program : List Item) (values : List Binary32) : Text :=
  stackCell width values ++ ' ' :: separator ++ ' ' :: programCell width program

/-- The stack in a cell of the given width, or at its own length without one. -/
def stackIn (width : Option Int) (values : List Binary32) : Except WidthError Text :=
  match width with
  | none => .ok (stackText values)
  | some n => (widthOf n).map (stackCell · values)

/-- The two cells of the given width. -/
def cellsIn (width : Option Int) (program : List Item) (values : List Binary32) :
    Except WidthError Text :=
  match width with
  | none => .error .missing
  | some n => (widthOf n).map (cells · program values)

end Display

/-- The trace line of a moment: its step, then its cells. -/
def Snapshot.display (m : Snapshot) : Text :=
  Text.rendition "90".toList ++ Text.padLeft 3 (Text.ofNat m.step) ++ " :".toList ++
    Text.plainRendition ++ "  ".toList ++
    Display.cells Display.cellWidth m.program m.stack.bottomUp

end ReversePolish
