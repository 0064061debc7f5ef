import Abacus.CommandLine.Arguments
import Abacus.CommandLine.Folder
import Abacus.CommandLine.Repl
import Abacus.Digest.Fingerprint

/-!
# Carrying out a command

What a command prints, says and writes, as a function of its words, the files and the standard
input.
-/

namespace Abacus.CommandLine

open Abacus.Lowering (Options FaultConfig)

/-- The exit code, the output and the messages of a command. -/
structure Outcome where
  exit : Nat
  output : Output

/-- What a command comes to. Writing a file may fail, so its messages depend on that. -/
inductive Plan where
  | done (outcome : Outcome)
  | write (path text : String) (afterwards : Option ReadError → Outcome)

/-- The command has failed with a message. -/
def failed (message : String) : Outcome := ⟨1, Output.empty.message ("error: " ++ message)⟩

/-- A source text has been refused for the given reasons. -/
def rejected (diagnostics : List Diagnostic) : Outcome :=
  let o := Output.empty.messages (diagnostics.map Diagnostic.text)
  ⟨1, o.message ("error: compilation failed (" ++ toString diagnostics.length ++ " error(s))")⟩

/-- The name of a file with another extension: what follows the last dot of the name is replaced.
A dot at the very start does not count. -/
def withExtension (path extension : String) : String :=
  let reversed := path.toList.reverse
  let name := (reversed.takeWhile (· ≠ '/')).reverse
  let folder := (reversed.dropWhile (· ≠ '/')).reverse
  let afterDot := (name.reverse.takeWhile (· ≠ '.')).length
  let stem := if afterDot + 1 < name.length then name.take (name.length - afterDot - 1) else name
  String.ofList (folder ++ stem) ++ "." ++ extension

/-- Where `build` writes to; nowhere if it prints. -/
def buildTarget (input : String) (output? : Option String) (emit : Bool) : Option String :=
  match output? with
  | some path => if path = "-" then none else some path
  | none => if emit then some (withExtension input "ir") else none

/-- The messages of `build` once its file is written. -/
def buildReport (input target : String) (count : Nat) : Option ReadError → Outcome
  | none =>
    ⟨0, Output.empty.message ("Compiled " ++ input ++ " -> " ++ target ++ " (" ++ toString count ++
      " functions)")⟩
  | some e => failed ("cannot write '" ++ target ++ "': " ++ e.text)

/-- Prints a module or writes it to a file. -/
def buildPlan (input : String) (output? : Option String) (emit : Bool) (m : Flow.Module) : Plan :=
  match buildTarget input output? emit with
  | none => .done ⟨0, Output.empty.print m.text⟩
  | some target => .write target m.text (buildReport input target m.functions.length)

/-- Calls a function of a module; without a name, that of its top-level statements. -/
def runOutcome (input : String) (function? : Option String) (arguments : List Int64) (fuel : Nat)
    (m : Flow.Module) : Outcome :=
  let unit? := (m.functions.find? (·.name = Lowering.defaultUnitName)).map Flow.Function.name
  match function? <|> unit? with
  | none => failed ("'" ++ input ++ "' has no top-level statements; pass --entry")
  | some entry =>
    let result := (Machine.Program.ofModule m).run entry arguments fuel
    ⟨if result.toBool then 0 else 1, Output.empty.result result⟩

/-- A digest in hexadecimal, in full or its first sixteen digits. -/
def shownDigest (full : Bool) (digest : List UInt8) : String :=
  Blake3.hex (if full then digest else digest.take 8)

/-- Shows the fingerprints of a module, its functions in the order of their names. -/
def hashOutcome (input : String) (full : Bool) (m : Flow.Module) : Outcome :=
  let sorted := m.functionDigests.mergeSort fun a b => !(b.1 < a.1)
  let o := Output.empty.message ("File: " ++ shownDigest full m.digest ++ " " ++ input)
  let listing := sorted.map fun (name, digest) =>
    "  " ++ shownDigest full digest ++ " " ++ name ++ "\n"
  ⟨0, o.print (String.join listing)⟩

/-- The file that a command compiles. -/
def Command.input? : Command → Option String
  | .build input .. | .run input .. | .hash input _ => some input
  | .repl .. => none

/-- The session of a dialogue. -/
def replSession (fuel? : Option Nat) : Session :=
  Session.start Options.default (fuel?.getD Machine.defaultFuel)

/-- Goes on with the module of a file, or says why there is none. -/
def withModule (input : String) (options : Options) (source : Except ReadError String)
    (next : Flow.Module → Plan) : Plan :=
  match source with
  | .error e => .done (failed (cannotRead input e))
  | .ok text =>
    match compile options text with
    | .error diagnostics => .done (rejected diagnostics)
    | .ok m => next m

/-- What a command comes to, given how its file is read and the standard input. -/
def Command.plan (command : Command) (read : String → Except ReadError String)
    (stdin : ByteArray) : Plan :=
  match command with
  | .build input output? emit verify =>
    withModule input { Options.default with verify } (read input) (buildPlan input output? emit)
  | .run input function? arguments fuel? code =>
    withModule input { Options.default with fault := { FaultConfig.default with code } }
      (read input) fun m =>
        .done (runOutcome input function? arguments (fuel?.getD Machine.defaultFuel) m)
  | .hash input full =>
    withModule input Options.default (read input) fun m => .done (hashOutcome input full m)
  | .repl fuel? showGraphs => .done ⟨0, replOutput (replSession fuel?) showGraphs stdin⟩

/-- Carries out a plan in a folder. -/
def Plan.perform (plan : Plan) (folder : Folder) : Outcome × Folder :=
  match plan with
  | .done outcome => (outcome, folder)
  | .write path text afterwards =>
    match folder.write path text with
    | .ok after => (afterwards none, after)
    | .error e => (afterwards (some e), folder)

/-- The exit code when the words are not understood. -/
def notUnderstood : Nat := 2

/-- Carries out the command that the words ask for, in a folder. -/
def perform (words : List String) (folder : Folder) (stdin : ByteArray) : Outcome × Folder :=
  match Command.parse? words with
  | none => (⟨notUnderstood, Output.empty⟩, folder)
  | some command => (command.plan folder.read stdin).perform folder

end Abacus.CommandLine
