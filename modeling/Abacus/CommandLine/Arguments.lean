import Abacus.Number.Literal

/-!
# Arguments

What the words after the name of the program ask for. A word that starts with two dashes is a long
option, possibly with a value after an equals sign; a word that starts with one dash is a cluster of
short options, the last of which may have its value attached; two dashes alone end the options.

* `OptionSpec` — an option of a command;
* `readWords` — sorts words into options and operands;
* `Command.parse?` — the command, or nothing if the words are not understood.
-/

namespace Abacus.CommandLine

/-! ## Options -/

/-- An option: its names, whether a value follows it, whether it may be repeated, and whether its
value may be a negative number in a word of its own. -/
structure OptionSpec where
  long : String
  short? : Option Char
  takesValue : Bool
  repeatable : Bool
  negativeNumbers : Bool

/-- An option that is given or not. -/
def flag (long : String) (short? : Option Char) : OptionSpec := ⟨long, short?, false, false, false⟩

/-- An option with a value. -/
def valued (long : String) (short? : Option Char) : OptionSpec := ⟨long, short?, true, false, false⟩

/-- What words come to: options with their values, and the other words, each in order. -/
structure Words where
  options : List (String × String)
  operands : List String

namespace Words

/-- No words. -/
def empty : Words := ⟨[], []⟩

/-- Puts an option in front. -/
def addOption (name value : String) (w : Words) : Words :=
  { w with options := (name, value) :: w.options }

/-- Puts an operand in front. -/
def addOperand (operand : String) (w : Words) : Words :=
  { w with operands := operand :: w.operands }

/-- The values of an option. -/
def values (w : Words) (name : String) : List String :=
  (w.options.filter (·.1 = name)).map Prod.snd

/-- The value of an option that is given once. -/
def value? (w : Words) (name : String) : Option String := (w.values name).head?

/-- Is the option given? -/
def has (w : Words) (name : String) : Bool := w.options.any (·.1 = name)

end Words

/-- The kinds of words. -/
inductive WordKind where
  | dashes
  | long (name : String) (value? : Option String)
  | short (cluster : List Char)
  | operand

/-- The kind of a word. A single dash is an operand. -/
def wordKind (word : String) : WordKind :=
  match word.toList with
  | ['-', '-'] => .dashes
  | '-' :: '-' :: rest =>
    let name := String.ofList (rest.takeWhile (· ≠ '='))
    match rest.dropWhile (· ≠ '=') with
    | [] => .long name none
    | _ :: value => .long name (some (String.ofList value))
  | '-' :: c :: rest => .short (c :: rest)
  | _ => .operand

/-- May the word be the value of the option before it? -/
def isValueWord (spec : OptionSpec) (word : String) : Bool :=
  match wordKind word with
  | .operand => true
  | .short _ => spec.negativeNumbers && (Literal.int64? word).isSome
  | .dashes | .long .. => false

/-- Goes through a cluster of short options: the flags in it, and the option with a value that ends
it, with the value if that is attached. -/
def readCluster (specs : List OptionSpec) :
    List Char → Option (List String × Option (OptionSpec × Option String))
  | [] => some ([], none)
  | c :: rest =>
    match specs.find? (·.short? = some c) with
    | none => none
    | some spec =>
      if spec.takesValue then
        let attached? := match rest with
          | [] => none
          | '=' :: value => some (String.ofList value)
          | value => some (String.ofList value)
        some ([], some (spec, attached?))
      else (readCluster specs rest).map fun (flags, last?) => (spec.long :: flags, last?)

/-- Puts flags in front. -/
def addFlags (flags : List String) (w : Words) : Words :=
  flags.foldr (fun name w => w.addOption name "") w

/-- Sorts words into options and operands. Gives nothing if an option is unknown, lacks its value,
or has one that it does not take. -/
def readWords (specs : List OptionSpec) : List String → Option Words
  | [] => some Words.empty
  | word :: rest =>
    match wordKind word with
    | .dashes => some ⟨[], rest⟩
    | .operand => (readWords specs rest).map (Words.addOperand word)
    | .long name value? =>
      match specs.find? (·.long = name) with
      | none => none
      | some spec =>
        match spec.takesValue, value? with
        | false, none => (readWords specs rest).map (Words.addOption name "")
        | false, some _ => none
        | true, some value => (readWords specs rest).map (Words.addOption name value)
        | true, none =>
          match rest with
          | [] => none
          | value :: rest =>
            if isValueWord spec value then (readWords specs rest).map (Words.addOption name value)
            else none
    | .short cluster =>
      match readCluster specs cluster with
      | none => none
      | some (flags, none) => (readWords specs rest).map (addFlags flags)
      | some (flags, some (spec, some value)) =>
        (readWords specs rest).map fun w => addFlags flags (w.addOption spec.long value)
      | some (flags, some (spec, none)) =>
        match rest with
        | [] => none
        | value :: rest =>
          if isValueWord spec value then
            (readWords specs rest).map fun w => addFlags flags (w.addOption spec.long value)
          else none

/-- Is every option that must not be repeated given at most once? -/
def noRepetition (specs : List OptionSpec) (w : Words) : Bool :=
  specs.all fun spec => spec.repeatable || (w.values spec.long).length ≤ 1

/-! ## Commands -/

/-- What the program is asked to do. -/
inductive Command where
  /-- Compile a file and show its flow graphs, or write them to a file. -/
  | build (input : String) (output? : Option String) (emit verify : Bool)
  /-- Compile a file and call a function of it. -/
  | run (input : String) (function? : Option String) (arguments : List Int64) (fuel? : Option Nat)
    (faultCode : Int64)
  /-- Show the fingerprints of a file. -/
  | hash (input : String) (full : Bool)
  /-- Read units from the standard input and run them. -/
  | repl (fuel? : Option Nat) (showGraphs : Bool)
  deriving DecidableEq

/-- The option that every command has. -/
def verbose : OptionSpec := flag "verbose" (some 'v')

/-- The options of each command. -/
def optionsOf : String → Option (List OptionSpec)
  | "build" => some [verbose, valued "output" (some 'o'), flag "emit" none, flag "no-verify" none]
  | "run" =>
    some [verbose, valued "entry" none, ⟨"arg", none, true, true, true⟩, valued "fuel" none,
      valued "fault-code" none]
  | "hash" => some [verbose, flag "full" none]
  | "repl" => some [verbose, valued "fuel" none, flag "show-ir" none]
  | _ => none

/-- A path must not be empty. -/
def path? (text : String) : Option String := if text.isEmpty then none else some text

/-- The only operand, as a path. -/
def inputOf (w : Words) : Option String :=
  match w.operands with
  | [input] => path? input
  | _ => none

/-- Reads a value that may be left out. The outer `none` says that it is not understood. -/
def optional {α : Type} (read : String → Option α) : Option String → Option (Option α)
  | none => some none
  | some text => (read text).map some

/-- The command of a name, from its options and operands. -/
def commandOf (name : String) (w : Words) : Option Command := do
  match name with
  | "build" =>
    let input ← inputOf w
    let output? ← optional path? (w.value? "output")
    if w.has "emit" && output?.isSome then none
    else some (.build input output? (w.has "emit") (!w.has "no-verify"))
  | "run" =>
    let input ← inputOf w
    let arguments ← (w.values "arg").mapM Literal.int64?
    let fuel? ← optional Literal.unsigned64? (w.value? "fuel")
    let code? ← optional Literal.int64? (w.value? "fault-code")
    some (.run input (w.value? "entry") arguments fuel? (code?.getD 1))
  | "hash" =>
    let input ← inputOf w
    some (.hash input (w.has "full"))
  | "repl" =>
    let fuel? ← optional Literal.unsigned64? (w.value? "fuel")
    if w.operands.isEmpty then some (.repl fuel? (w.has "show-ir")) else none
  | _ => none

/-- The name of the command and the words after it. Before it, `verbose` may be given once. -/
def splitCommand (seen : Bool) : List String → Option (String × List String)
  | [] => none
  | word :: rest =>
    if word = "-v" || word = "--verbose" then
      if seen then none else splitCommand true rest
    else some (word, rest)

/-- The command that the words ask for, if they are understood. -/
def Command.parse? (words : List String) : Option Command := do
  let (name, rest) ← splitCommand false words
  let specs ← optionsOf name
  let w ← readWords specs rest
  if noRepetition specs w then commandOf name w else none

end Abacus.CommandLine
