import ReversePolish.Session.Message

/-! Explanations of what went wrong, for the person who wrote the words. -/

namespace ReversePolish

inductive Diagnosis
  /-- The operator at `index`, if that is known, lacks operands. -/
  | missingOperands (token : Token) (index : Option Int)
  /-- Not one value was left but `depth`; the values, if known, from the bottom up. -/
  | unbalanced (depth : Int) (values : Option (List Binary32))
  | noInput (message : Text)

/-- An error as a session meets it: with a diagnosis, or with nothing but its message. -/
inductive Incident
  | diagnosed (diagnosis : Diagnosis)
  | unexplained (message : Text)

namespace EvaluationError

def incident : EvaluationError → Incident
  | missingOperands token index _ => .diagnosed (.missingOperands token (some index))
  | unbalanced stack => .diagnosed (.unbalanced stack.length (some stack.bottomUp))
  | unclassified text => .unexplained (Fault.unclassified text).message

end EvaluationError

namespace Diagnosis

def unbalancedDetail (depth : Int) : Text :=
  if depth = 0 then "Stack is empty after applying all operators; nothing to print.".toList
  else
    "Stack contains ".toList ++ Text.ofInt depth ++
      " values after applying all operators.\nAre you missing an operator at the end?".toList

def stackContent (values : List Binary32) : Text :=
  Text.rendition "1;33".toList ++ "  Stack content is".toList ++
    Text.rendition "0;33".toList ++ "\n    ".toList ++
    Display.stackText values ++ Text.plainRendition

/-- The explanation, with a pointer at the operator among the words. -/
def explanation (words : List Text) : Diagnosis → Text
  | missingOperands token index =>
    Message.banner "STACK ERROR.".toList
      ("Not enough values on stack to apply operator `".toList ++
        Text.rendition "1;97".toList ++ token.source ++ Text.plainRendition ++ "`.\n".toList ++
        Display.pointer Display.green index.toList words)
  | unbalanced depth values =>
    Message.banner "UNBALANCED EXPRESSION.".toList
      (unbalancedDetail depth ++ '\n' :: stackContent (values.getD []))
  | noInput message => Message.banner "NO INPUT.".toList message

end Diagnosis

end ReversePolish
