import Abacus.CommandLine.Execute

/-!
# The program

Reads files and the standard input, carries out the command, and writes what comes of it. A dialogue
answers each line as it comes.
-/

namespace Abacus.CommandLine

/-- What the system says about a file, in the terms of the library. -/
def ofSystem : IO.Error → ReadError
  | .noFileOrDirectory .. => .missing
  | .inappropriateType .. => .isFolder
  | e => .other (toString e)

/-- The text of a file of the system. -/
def readSystemFile (path : String) : IO (Except ReadError String) := do
  try
    let bytes ← IO.FS.readBinFile path
    return textOf (some bytes)
  catch e => return .error (ofSystem e)

/-- Writes a file of the system; gives what went wrong. -/
def writeSystemFile (path text : String) : IO (Option ReadError) := do
  try
    IO.FS.writeFile path text
    return none
  catch e => return some (ofSystem e)

/-- Prints output and messages. -/
def printOutput (o : Output) : IO Unit := do
  IO.print o.stdout
  (← IO.getStdout).flush
  o.stderr.forM IO.eprintln

/-- Prints what came of a command; gives its exit code. -/
def printOutcome (outcome : Outcome) : IO UInt32 := do
  printOutput outcome.output
  return outcome.exit.toUInt32

/-- The bytes up to the end of the next line. -/
partial def readLine (stdin : IO.FS.Stream) (sofar : ByteArray) : IO ByteArray := do
  let next ← stdin.read 1
  if next.isEmpty then return sofar
  else if next.data[0]? = some 10 then return sofar.push 10
  else readLine stdin (sofar ++ next)

/-- A dialogue over the lines of the standard input. -/
partial def converse (stdin : IO.FS.Stream) (r : Repl) : IO Unit := do
  let bytes ← readLine stdin ByteArray.empty
  match (lines bytes.toList).map lineText with
  | some line :: _ =>
    match r.feed line Output.empty with
    | none => return ()
    | some (r, o) =>
      printOutput o
      converse stdin r
  | rest => printOutput (r.feedAll Output.empty rest)

/-- Carries out a command on a file of the system. -/
def performOnFile (command : Command) (input : String) : IO UInt32 := do
  let source ← readSystemFile input
  match command.plan (fun _ => source) ByteArray.empty with
  | .done outcome => printOutcome outcome
  | .write path text afterwards => printOutcome (afterwards (← writeSystemFile path text))

/-- Carries out the command that the words ask for. -/
def performInSystem (words : List String) : IO UInt32 := do
  match Command.parse? words with
  | none =>
    IO.eprintln "error: the arguments are not understood"
    return notUnderstood.toUInt32
  | some (.repl fuel? showGraphs) =>
    let r : Repl := ⟨replSession fuel?, "", showGraphs⟩
    printOutput (Output.empty.print r.prompt)
    converse (← IO.getStdin) r
    return 0
  | some command => performOnFile command (command.input?.getD "")

end Abacus.CommandLine

/-- The program. -/
def main (arguments : List String) : IO UInt32 :=
  Abacus.CommandLine.performInSystem arguments
