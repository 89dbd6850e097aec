import ReversePolish.Binary.Arithmetic
import ReversePolish.Binary.Elementary
import ReversePolish.Item

/-! The operand stack and the effect of one item on it. A constant or number is put
on top; an operator takes its operands from the top, the last one first, and puts its
result there; an invalid token does nothing. A push that fails leaves no new stack. -/

namespace ReversePolish

namespace Constant

def value : Constant → Binary32
  | pi => Binary32.pi
  | e => Binary32.e

end Constant

namespace UnaryOperator

def apply : UnaryOperator → Binary32 → Binary32
  | ln => Binary32.ln
  | log2 => Binary32.log2
  | log10 => Binary32.log10
  | sin => Binary32.sin
  | cos => Binary32.cos
  | tan => Binary32.tan

end UnaryOperator

namespace BinaryOperator

/-- The operator on its operands in written order. The logarithm of the first in the
base of the second is a quotient of rounded natural logarithms. -/
def apply : BinaryOperator → Binary32 → Binary32 → Binary32
  | add => .add
  | subtract => .sub
  | multiply => .mul
  | divide => .div
  | log => fun x base => x.ln.div base.ln

end BinaryOperator

/-- Values from the top of the stack down. -/
abbrev Stack := List Binary32

/-- Why an item cannot be pushed. -/
inductive Fault
  | missingOperands (token : Token) (available : Nat)
  | unclassified (text : Text)
  deriving DecidableEq

namespace Fault

def message : Fault → Text
  | missingOperands token available =>
    "`".toList ++ token.source ++ "` needs ".toList ++ Text.ofNat token.arity ++
      " value(s) on the stack, but ".toList ++ Text.ofNat available ++ " available.".toList
  | unclassified text => "Unknown token `".toList ++ text.quoted ++ "`.".toList

end Fault

namespace Stack

/-- The values in the order in which they were put on the stack. -/
def bottomUp (s : Stack) : List Binary32 := s.reverse

def ofBottomUp (values : List Binary32) : Stack := values.reverse

def pushToken (s : Stack) (t : Token) : Except Fault Stack :=
  match t, s with
  | .number v, s => .ok (v :: s)
  | .constant c, s => .ok (c.value :: s)
  | .unary op, x :: s => .ok (op.apply x :: s)
  | .binary op, y :: x :: s => .ok (op.apply x y :: s)
  | .invalid, s => .ok s
  | t, s => .error (.missingOperands t s.length)

def push (s : Stack) : Item → Except Fault Stack
  | .token t => s.pushToken t
  | .bare text => .error (.unclassified text)

/-- The stack after all items, or the fault of the first that cannot be pushed. -/
def pushAll (s : Stack) : List Item → Except Fault Stack
  | [] => .ok s
  | item :: rest => (s.push item).bind (pushAll · rest)

@[simp] theorem pushAll_nil (s : Stack) : s.pushAll [] = .ok s := rfl

theorem pushAll_cons (s : Stack) (item : Item) (rest : List Item) :
    s.pushAll (item :: rest) = (s.push item).bind (pushAll · rest) := rfl

theorem pushAll_append (s : Stack) (p q : List Item) :
    s.pushAll (p ++ q) = (s.pushAll p).bind (pushAll · q) := by
  induction p generalizing s with
  | nil => rfl
  | cons item rest ih =>
    rw [List.cons_append, pushAll_cons, pushAll_cons]
    cases s.push item with
    | error fault => rfl
    | ok s' => exact ih s'

/-- The only value, taken from the stack; any other stack stays as it is. -/
def takeOnly : Stack → Option Binary32 × Stack
  | [v] => (some v, [])
  | s => (none, s)

end Stack

end ReversePolish
