import Abacus.Lowering.Fault
import Abacus.Lowering.SymbolTable

/-!
# A workbench

The parts that lowering is made of, for use one operation at a time: a symbol table, at most one
open function, what is known about its variables, and the identity of faults. An operation on the
open function that fails keeps what it has done to the function so far; every other operation that
fails changes nothing.
-/

namespace Abacus.Lowering

open Abacus.Flow (Value Block Function Builder)

/-- The parts of the compiler at work. `begun` are the names of all functions begun so far. -/
structure Workbench where
  symbols : SymbolTable
  builder? : Option Builder
  begun : List String
  known : Variables
  fault : FaultConfig

namespace Workbench

/-- Nothing is defined, and no function is open. -/
def empty : Workbench := ⟨SymbolTable.empty, none, [], Variables.empty, FaultConfig.default⟩

/-- Defines a function of the given number of integer parameters and opens it. Gives its entry. -/
def beginFunction (w : Workbench) (name : String) (arity : Nat) :
    Except LoweringError (Block × Workbench) :=
  match w.builder? with
  | some builder => .error (.ofDefect (.alreadyOpen name builder.function.name))
  | none => do
    let (_, symbols) ← w.symbols.define name (.function arity false)
    let builder := Builder.start name (List.replicate arity .int) .int
    return (Function.entry,
      { w with symbols, builder? := some builder, begun := name :: w.begun })

/-- The open function. -/
def openBuilder (w : Workbench) : Except LoweringError Builder :=
  match w.builder? with
  | some builder => .ok builder
  | none => .error (.ofDefect .noOpenFunction)

/-- Works on the open function and its variables. -/
def onDraft {α : Type} (w : Workbench) (work : Drafting α) : Except LoweringError α × Workbench :=
  match w.openBuilder with
  | .error e => (.error e, w)
  | .ok builder =>
    let (result, draft) := work.on ⟨builder, w.known⟩
    (result, { w with builder? := some draft.builder, known := draft.known })

/-- Makes a block of the open function current. -/
def setCurrent (w : Workbench) (block : Block) : Except LoweringError Unit × Workbench :=
  w.onDraft do
    if block.index < (← get).builder.blockCount then Drafting.setCurrent block
    else throw (.ofDefect (.noSuchBlock block))

/-- The value of a parameter of the open function. -/
def param (w : Workbench) (index : Nat) : Except LoweringError Value := do
  let builder ← w.openBuilder
  match builder.param? index with
  | some v => return v
  | none => throw (.ofDefect (.noParameter builder.function.name index))

/-- The entry of a function that has been begun. -/
def entryOf (w : Workbench) (name : String) : Option Block :=
  if w.begun.contains name then some Function.entry else none

/-- The name of the open function. -/
def currentFunction (w : Workbench) : Option String :=
  w.builder?.map fun builder => builder.function.name

/-- Closes the open function. -/
def finishFunction (w : Workbench) : Except LoweringError (Function × Workbench) := do
  let builder ← w.openBuilder
  return (builder.function, { w with builder? := none })

end Workbench

end Abacus.Lowering
