import ReversePolish.Decimal.Layout
import ReversePolish.Literal

/-! Tokens and the words that write them. A word is a symbol in letters of any
case, a literal, or invalid; only a literal without a value is an error. -/

namespace ReversePolish

inductive Constant
  | pi | e
  deriving DecidableEq

inductive UnaryOperator
  | ln | log2 | log10 | sin | cos | tan
  deriving DecidableEq

inductive BinaryOperator
  | add | subtract | multiply | divide | log
  deriving DecidableEq

inductive Token
  | number (value : Binary32)
  | constant (name : Constant)
  | unary (operator : UnaryOperator)
  | binary (operator : BinaryOperator)
  | invalid
  deriving DecidableEq

namespace Constant

def all : List Constant := [pi, e]

def symbol : Constant → Text
  | pi => "pi".toList
  | e => "e".toList

end Constant

namespace UnaryOperator

def all : List UnaryOperator := [ln, log2, log10, sin, cos, tan]

def symbol : UnaryOperator → Text
  | ln => "ln".toList
  | log2 => "log2".toList
  | log10 => "log10".toList
  | sin => "sin".toList
  | cos => "cos".toList
  | tan => "tan".toList

end UnaryOperator

namespace BinaryOperator

def all : List BinaryOperator := [add, subtract, multiply, divide, log]

/-- A point multiplies. -/
def symbol : BinaryOperator → Text
  | add => "+".toList
  | subtract => "-".toList
  | multiply => ".".toList
  | divide => "/".toList
  | log => "log".toList

end BinaryOperator

namespace Token

/-- The number of values that the token takes from the stack. -/
def arity : Token → Nat
  | unary _ => 1
  | binary _ => 2
  | _ => 0

def isOperator : Token → Bool
  | unary _ | binary _ => true
  | _ => false

/-- The symbols and their tokens, in the order in which they are listed to a reader. -/
def symbols : List (Text × Token) :=
  Constant.all.map (fun c => (c.symbol, constant c)) ++
    UnaryOperator.all.map (fun op => (op.symbol, unary op)) ++
    BinaryOperator.all.map (fun op => (op.symbol, binary op))

/-- The token of a symbol. -/
def ofSymbol? (word : Text) : Option Token :=
  (symbols.find? fun entry => word.spells entry.1).map Prod.snd

/-- The token that the word writes. -/
def ofWord (word : Text) : Except LiteralError Token :=
  match ofSymbol? word with
  | some token => .ok token
  | none =>
    match Literal.ofWord? word with
    | some literal => (literal.value word).map number
    | none => .ok invalid

def ofWords (words : List Text) : Except LiteralError (List Token) := words.mapM ofWord

/-- The positions of the invalid tokens. -/
def invalidPositions (tokens : List Token) : List Nat :=
  (tokens.zipIdx.filter (·.1 == invalid)).map Prod.snd

/-- The token as a text that reads back as it: a number is written exactly as its
double-precision value. -/
def source : Token → Text
  | number v => NumberStyle.general.write (v.convert : Binary64)
  | constant c => c.symbol
  | unary op => op.symbol
  | binary op => op.symbol
  | invalid => "≪invalid≫".toList

/-- Equality that compares numbers by value: the zeros are equal, and a token that
holds `nan` differs from itself. -/
def agrees : Token → Token → Bool
  | number v, number w => v.numericallyEqual w
  | s, t => s == t

end Token

end ReversePolish
