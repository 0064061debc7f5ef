import Abacus.Session
import Abacus.Text.Blank

/-!
# Units line by line

Lines are collected until a line holds only a semicolon; then they are compiled and run as a unit of
a session. A line that holds only `q` ends the dialogue if no line has been collected.
-/

namespace Abacus.CommandLine

/-- The output and the messages of a command. -/
structure Output where
  stdout : String
  stderr : List String

namespace Output

/-- Nothing. -/
def empty : Output := ⟨"", []⟩

/-- Adds to the output. -/
def print (o : Output) (text : String) : Output := { o with stdout := o.stdout ++ text }

/-- Adds a message. -/
def message (o : Output) (line : String) : Output := { o with stderr := o.stderr ++ [line] }

/-- Adds messages. -/
def messages (o : Output) (lines : List String) : Output := { o with stderr := o.stderr ++ lines }

/-- Adds the reports and the result of a run, or why there is none. -/
def result (o : Output) : Except Machine.RuntimeError Machine.Execution → Output
  | .ok execution =>
    (o.messages (execution.reports.map Machine.FaultReport.text)).print
      (intText execution.value ++ "\n")
  | .error e => o.message ("error: " ++ e.message)

end Output

/-- A dialogue: its session, the lines collected, and whether flow graphs are shown. -/
structure Repl where
  session : Session
  buffer : String
  showGraphs : Bool

namespace Repl

/-- What invites the next line. -/
def prompt (r : Repl) : String := if r.buffer.isEmpty then "> " else ". "

/-- Compiles and runs the lines collected. -/
def evaluate (r : Repl) (o : Output) : Repl × Output :=
  match r.session.compileUnit r.buffer with
  | .error diagnostics =>
    ({ r with buffer := "" }, o.messages (diagnostics.map Diagnostic.text))
  | .ok (emission, session) =>
    let o := if r.showGraphs then o.print emission.module.text else o
    let o := o.messages (emission.exports.map fun e =>
      "defined " ++ e.name ++ "/" ++ toString e.arity)
    let o := match emission.unit? with
      | none => o
      | some unit => o.result (session.program.run unit [] session.fuel)
    ({ r with session := session, buffer := "" }, o)

/-- What a line does: the dialogue after it, or nothing if it ends the dialogue. -/
def feed (r : Repl) (line : String) (o : Output) : Option (Repl × Output) :=
  let word := Text.trim line
  if word = "q" && r.buffer.isEmpty then none
  else
    let (r, o) := if word = ";" then r.evaluate o
      else ({ r with buffer := r.buffer ++ line ++ "\n" }, o)
    some (r, o.print r.prompt)

/-- Goes through lines; a line that is no text ends the dialogue. -/
def feedAll (r : Repl) (o : Output) : List (Option String) → Output
  | [] => o
  | none :: _ => o.message ("error: " ++ ReadError.notText.text)
  | some line :: rest =>
    match r.feed line o with
    | none => o
    | some (r, o) => feedAll r o rest

end Repl

/-- The lines of a sequence of bytes, without their ends. The last one may lack its end. A carriage
return belongs to the line end that follows it. -/
def lines : List UInt8 → List (List UInt8)
  | [] => []
  | bytes => go [] bytes
where
  /-- The lines, of which the first starts with the bytes of `sofar` in reverse. -/
  go (sofar : List UInt8) : List UInt8 → List (List UInt8)
    | [] => if sofar.isEmpty then [] else [sofar.reverse]
    | 10 :: rest =>
      let line := match sofar with
        | 13 :: before => before.reverse
        | other => other.reverse
      line :: go [] rest
    | byte :: rest => go (byte :: sofar) rest

/-- The text of a line, if it is one. -/
def lineText (bytes : List UInt8) : Option String :=
  String.fromUTF8? ⟨bytes.toArray⟩

/-- A dialogue over all of the given bytes. -/
def replOutput (session : Session) (showGraphs : Bool) (stdin : ByteArray) : Output :=
  let r : Repl := ⟨session, "", showGraphs⟩
  r.feedAll (Output.empty.print r.prompt) ((lines stdin.toList).map lineText)

end Abacus.CommandLine
