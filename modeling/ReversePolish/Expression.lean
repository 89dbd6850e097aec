import ReversePolish.Stack

/-! Expressions as trees, their postfix listings, and their values. Pushing a listing
on any stack puts the value of its tree on top, with the left operand written first. -/

namespace ReversePolish

inductive Expression
  | number (value : Binary32)
  | constant (name : Constant)
  | unary (operator : UnaryOperator) (operand : Expression)
  | binary (operator : BinaryOperator) (left right : Expression)

namespace Expression

/-- The operands of each operator in order, then the operator. -/
def listing : Expression → List Token
  | number v => [.number v]
  | constant c => [.constant c]
  | unary op x => x.listing ++ [.unary op]
  | binary op x y => x.listing ++ y.listing ++ [.binary op]

def value : Expression → Binary32
  | number v => v
  | constant c => c.value
  | unary op x => op.apply x.value
  | binary op x y => op.apply x.value y.value

theorem pushAll_listing (e : Expression) (s : Stack) :
    s.pushAll (e.listing.map .token) = .ok (e.value :: s) := by
  induction e generalizing s with
  | number v => rfl
  | constant c => rfl
  | unary op x ih =>
    rw [listing, List.map_append, Stack.pushAll_append, ih]
    rfl
  | binary op x y ihx ihy =>
    rw [listing, List.map_append, List.map_append, Stack.pushAll_append, Stack.pushAll_append, ihx]
    simp only [Except.bind, ihy]
    rfl

end Expression

end ReversePolish
