import Abacus.Lowering.Unit
import Abacus.Tree.Statement

/-!
# From source text to flow graphs

`compile` joins reading and lowering. A file that cannot be read is reported as a diagnostic without
a place.
-/

namespace Abacus

open Abacus.Lowering (Options Export Emission)

/-- Lowers a tree against the functions of earlier units; the error becomes a diagnostic. -/
def compileTree (options : Options) (exports : List Export) (unitName : String) (tree : Tree) :
    Except (List Diagnostic) Emission :=
  match Lowering.lowerUnit options exports unitName (some tree) with
  | .ok emission => .ok emission
  | .error e => .error [e.diagnostic]

/-- Compiles a source text as a unit of its own. -/
def compile (options : Options) (source : String) : Except (List Diagnostic) Flow.Module := do
  let tree ← parse source
  let emission ← compileTree options [] Lowering.defaultUnitName tree
  return emission.module

/-! ## Files -/

/-- Why a file cannot be read as text, or not be written. -/
inductive ReadError where
  | missing
  | isFolder
  | notFolder
  | notText
  | other (text : String)
  deriving DecidableEq, Repr

/-- The words of the system for it. -/
def ReadError.text : ReadError → String
  | missing => "No such file or directory (os error 2)"
  | isFolder => "Is a directory (os error 21)"
  | notFolder => "Not a directory (os error 20)"
  | notText => "stream did not contain valid UTF-8"
  | other text => text

/-- The text of a file with the given bytes, if there is such a file. -/
def textOf (bytes? : Option ByteArray) : Except ReadError String :=
  match bytes? with
  | none => .error .missing
  | some bytes =>
    match String.fromUTF8? bytes with
    | some text => .ok text
    | none => .error .notText

/-- What is said of a file that cannot be read. -/
def cannotRead (path : String) (e : ReadError) : String :=
  "cannot read '" ++ path ++ "': " ++ e.text

/-- Compiles the text of a file with the usual options. -/
def compileFile (path : String) (bytes? : Option ByteArray) :
    Except (List Diagnostic) Flow.Module :=
  match textOf bytes? with
  | .ok source => compile Options.default source
  | .error e => .error [Diagnostic.error (cannotRead path e) Span.none]

end Abacus
