import ReversePolish.Stack

/-! Evaluation of a program: its items are pushed in order, and the result is the only
value left. A run records what it did besides: the steps it counted, the stack it left
behind, and a snapshot before each step that its verbosity shows. -/

namespace ReversePolish

/-- Why a program has no result. -/
inductive EvaluationError
  /-- The operator at `index` found too few values on the stack. -/
  | missingOperands (token : Token) (index : Nat) (stack : Stack)
  /-- All items were pushed, and not exactly one value was left. -/
  | unbalanced (stack : Stack)
  | unclassified (text : Text)
  deriving DecidableEq

namespace EvaluationError

/-- The fault of pushing an item at `index` on `stack`. -/
def ofFault (index : Nat) (stack : Stack) : Fault → EvaluationError
  | .missingOperands token _ => missingOperands token index stack
  | .unclassified text => unclassified text

def message : EvaluationError → Text
  | missingOperands token _ stack => (Fault.missingOperands token stack.length).message
  | unbalanced stack =>
    "Stack holds ".toList ++ Text.ofNat stack.length ++
      " value(s) after applying all operators, expected exactly one.".toList
  | unclassified text => (Fault.unclassified text).message

end EvaluationError

/-- A run at one moment: the steps done, the values so far, and the items to come. -/
structure Snapshot where
  step : Nat
  stack : Stack
  program : List Item

/-- What a run leaves behind. -/
structure Run where
  outcome : Except EvaluationError Binary32
  stack : Stack
  /-- The number of items, if all of them could be pushed. -/
  steps : Option Nat
  trace : List Snapshot

namespace Run

/-- Whether a run shows itself before an item: always at verbosity 2, and at 1 before
its first item and before operators. -/
def showsItem (verbosity : Int) (step : Nat) (item : Item) : Bool :=
  verbosity == 2 || verbosity == 1 && (item.isOperator || step == 0)

def showsEnd (verbosity : Int) : Bool := 0 < verbosity

/-- The run once all items are pushed. The steps count even if the stack is unbalanced. -/
def atEnd (verbosity : Int) (step : Nat) (s : Stack) : Run where
  outcome := match s.takeOnly.1 with
    | some v => .ok v
    | none => .error (.unbalanced s)
  stack := s.takeOnly.2
  steps := some step
  trace := if showsEnd verbosity then [⟨step, s, []⟩] else []

def failed (index : Nat) (s : Stack) (fault : Fault) : Run :=
  ⟨.error (.ofFault index s fault), s, none, []⟩

def withSnapshots (snapshots : List Snapshot) (r : Run) : Run :=
  { r with trace := snapshots ++ r.trace }

/-- The run that goes on after `step` items with the values `s`. -/
def after (verbosity : Int) (step : Nat) (s : Stack) : List Item → Run
  | [] => atEnd verbosity step s
  | item :: rest =>
    let shown := if showsItem verbosity step item then [⟨step, s, item :: rest⟩] else []
    match s.push item with
    | .error fault => (failed step s fault).withSnapshots shown
    | .ok s' => (after verbosity (step + 1) s' rest).withSnapshots shown

/-- A count of steps over several runs; there is none before the first counted run. -/
def addSteps (r : Run) (total : Option Int) : Option Int :=
  match r.steps with
  | some n => some (total.getD 0 + n)
  | none => total

end Run

/-- The run of a program on a stack. -/
def Stack.run (s : Stack) (verbosity : Int) (program : List Item) : Run :=
  Run.after verbosity 0 s program

/-- The run of words on an empty stack, if each of them is a token. -/
def evaluate (verbosity : Int) (words : List Text) : Except LiteralError Run :=
  (Token.ofWords words).map fun tokens => Stack.run [] verbosity (tokens.map .token)

/-- What can be evaluated: a line, or words that are apart already. -/
inductive Source
  | line (text : Text)
  | words (list : List Text)

namespace Source

def toWords : Source → List Text
  | line text => Text.splitWords text
  | words list => list

def evaluate (verbosity : Int) (source : Source) : Except LiteralError Run :=
  ReversePolish.evaluate verbosity source.toWords

end Source

end ReversePolish
