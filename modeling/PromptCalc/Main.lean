import PromptCalc.CommandLine

/-!
# Program

Reads the arguments and the standard input, and prints what the calculator answers. A conversation
is held line by line, so that each line is answered before the next one is read.
-/
namespace PromptCalc

/-- The bytes up to a line feed or the end of the input, if there are any. -/
partial def readLine (input : IO.FS.Stream) (line : ByteArray) : IO (Option ByteArray) := do
  let byte ← input.read 1
  if byte.isEmpty then
    return if line.isEmpty then none else some line
  else if byte[0]? = some 10 then
    return some line
  else
    readLine input (line ++ byte)

def reportFailure (failure : Failure) : IO Unit := do
  IO.eprintln failure.fault.message
  if let some hint := failure.fault.hint? then
    IO.eprintln hint

/-- The conversation of `Console.converse`, over the standard streams. -/
partial def converse (places : Nat) (s : Session) : IO Console.Ending := do
  let output ← IO.getStdout
  output.putStr Console.marker
  output.flush
  let some line ← readLine (← IO.getStdin) .empty | return .finished
  let reply := Console.answer places s (Console.decode line.toList)
  output.putStr reply.output
  if let some failure := reply.failure then
    reportFailure failure
  match reply.next with
  | .error ending => return ending
  | .ok s => converse places s

def usage : String :=
  "usage: [-p N | --precision N] [repl | tokenize PROMPT | parse PROMPT | eval PROMPT]"

end PromptCalc

open PromptCalc in
def main (args : List String) : IO UInt32 := do
  match CommandLine.invocation? args with
  | none =>
    IO.eprintln usage
    return UInt32.ofNat CommandLine.Report.misuse.exit
  | some ⟨places, .converse⟩ =>
    IO.print Console.greeting
    return UInt32.ofNat (← converse places .new).exit
  | some i =>
    let report := i.run .empty
    IO.print report.output
    if let some failure := report.failure then
      reportFailure failure
    return UInt32.ofNat report.exit
