import ReversePolish.Text.Control

/-! Pointing at words: the words on one line, and below each character a sign that
says whether its word is marked. -/

namespace ReversePolish.Display

/-- The colour of marked words unless another is asked for. -/
def green : Text := Text.rendition "32".toList

/-- A word as the upper line shows it; a marked empty word gets a sign of its own. -/
def shownWord (marked : Bool) (word : Text) : Text :=
  if marked && word.isEmpty then ['␣'] else word

def upperPiece (color : Text) (marked : Bool) (word : Text) : Text :=
  if marked then color ++ shownWord marked word ++ Text.plainRendition else word

def lowerPiece (marked : Bool) (word : Text) : Text :=
  List.replicate (shownWord marked word).length (if marked then '^' else '─')

/-- The words, each with whether its position is among the given ones. -/
def markWords (positions : List Int) (words : List Text) : List (Bool × Text) :=
  words.zipIdx.map fun (word, i) => (positions.contains (i : Int), word)

/-- The two lines that point at the words in the given positions. Positions where no
word stands mark nothing. -/
def pointer (color : Text) (positions : List Int) (words : List Text) : Text :=
  let pieces := markWords positions words
  Text.joinWords (pieces.map fun (marked, word) => upperPiece color marked word) ++ '\n' ::
    ['─'].intercalate (pieces.map fun (marked, word) => lowerPiece marked word)

end ReversePolish.Display
