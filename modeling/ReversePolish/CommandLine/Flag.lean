import ReversePolish.Text.Basic

/-! The flags of the command and how arguments spell them. A long name stands alone; in
a short group every letter that names a flag sets it, and the others are put back
together as one word. Flags may stand anywhere before the argument `--`. -/

namespace ReversePolish

inductive Flag
  | verbose | statistics | plain | quiet | help
  deriving DecidableEq

/-- Why the arguments cannot be understood. -/
inductive UsageError
  /-- A value was given to the flag of this name, which takes none. -/
  | valueForFlag (name : Text)

def UsageError.message : UsageError → Text
  | valueForFlag name => "Error: Option '".toList ++ name ++ "' does not take a value.".toList

namespace Flag

def all : List Flag := [verbose, statistics, plain, quiet, help]

def longName : Flag → Text
  | verbose => "--verbose".toList
  | statistics => "--stats".toList
  | plain => "--plain".toList
  | quiet => "--quiet".toList
  | help => "--help".toList

def letter? : Flag → Option Char
  | verbose => some 'v'
  | statistics => none
  | plain => some 'p'
  | quiet => some 'q'
  | help => some 'h'

def ofLongName? (name : Text) : Option Flag := all.find? (·.longName == name)

def ofLetter? (c : Char) : Option Flag := all.find? (·.letter? == some c)

end Flag

/-- The flags and the words of a list of arguments, each in order. -/
structure Arguments where
  flags : List Flag
  words : List Text
  deriving DecidableEq

namespace Arguments

def append (a b : Arguments) : Arguments := ⟨a.flags ++ b.flags, a.words ++ b.words⟩

instance : Append Arguments := ⟨append⟩

def word (w : Text) : Arguments := ⟨[], [w]⟩

/-- The letters after a single dash: flags, and the rest as a word behind a dash of its own. -/
def ofGroup (letters : Text) : Arguments where
  flags := letters.filterMap Flag.ofLetter?
  words :=
    match letters.filter (fun c => (Flag.ofLetter? c).isNone) with
    | [] => []
    | rest => ['-' :: rest]

/-- One argument that stands before `--`. What precedes `=` may be a flag's long name;
else a double dash makes a word, and a single dash with letters a group. -/
def ofArgument (arg : Text) : Except UsageError Arguments :=
  match arg, Flag.ofLongName? (arg.takeWhile (· != '=')) with
  | _, some flag =>
    if arg.contains '=' then .error (.valueForFlag flag.longName) else .ok ⟨[flag], []⟩
  | '-' :: '-' :: _, none => .ok (word arg)
  | '-' :: c :: letters, none => .ok (ofGroup (c :: letters))
  | _, none => .ok (word arg)

/-- All arguments; those after the first `--` are words as they stand. -/
def ofList : List Text → Except UsageError Arguments
  | [] => .ok ⟨[], []⟩
  | arg :: rest =>
    if arg = "--".toList then .ok ⟨[], rest⟩
    else do
      let first ← ofArgument arg
      let others ← ofList rest
      return first ++ others

end Arguments

end ReversePolish
