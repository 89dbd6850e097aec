import ReversePolish.CommandLine.Basic

/-! The program: it reads a line of standard input if its arguments supply no words,
writes the answer, and exits. -/

open ReversePolish

/-- Standard input as far as a request needs it. -/
def inputFor : Command.Request → IO StandardInput
  | .evaluateInput _ => do
    let stdin ← IO.getStdin
    if ← stdin.isTty then return .unavailable
    return .text (← stdin.getLine).toList
  | _ => return .unavailable

def writeAnswer (milliseconds : Nat) (answer : Command.Answer) : IO Unit := do
  let stdout ← IO.getStdout
  let stderr ← IO.getStderr
  stderr.putStr (String.ofList (answer.transcript milliseconds (← stderr.isTty) .report))
  stdout.putStr (String.ofList (answer.transcript milliseconds (← stdout.isTty) .result))

def main (args : List String) : IO UInt32 := do
  let started ← IO.monoMsNow
  let request := Command.Request.ofArguments (args.map String.toList)
  match request.answer (← inputFor request) with
  | .error e =>
    (← IO.getStderr).putStrLn (String.ofList e.message)
    return 1
  | .ok answer =>
    writeAnswer ((← IO.monoMsNow) - started) answer
    return answer.exitCode.toUInt32
