import Abacus.Lowering.Fault
import Abacus.Lowering.SymbolTable

/-!
# Lowering a body: state and conversions

While the body of a function is lowered, three things change: the names in scope, the draft of the
function, and whether the function may raise a fault.
-/

namespace Abacus.Lowering

open Abacus.Flow (Value Block Ty Inst Terminator)

/-- What changes while a body is lowered. -/
structure State where
  symbols : SymbolTable
  draft : Draft
  mayFault : Bool

/-- Lowers a part of a body. -/
abbrev Lower (α : Type) := StateT State (Except LoweringError) α

namespace Lower

/-- Works on the draft. -/
def onDraft {α : Type} (work : Drafting α) : Lower α := fun s =>
  match work.on s.draft with
  | (.ok a, draft) => .ok (a, { s with draft := draft })
  | (.error e, _) => .error e

/-- Works on the names in scope. -/
def onSymbols {α : Type} (work : SymbolTable → Except LoweringError (α × SymbolTable)) :
    Lower α := fun s =>
  match work s.symbols with
  | .ok (a, symbols) => .ok (a, { s with symbols := symbols })
  | .error e => .error e

/-- Gives errors that have no place yet the place `span`. -/
def located {α : Type} (span : Span) (work : Lower α) : Lower α := fun s =>
  match work s with
  | .ok result => .ok result
  | .error e => .error (e.locate span)

/-- Stops with a defect. -/
def defect {α : Type} (d : Defect) : Lower α := throw (.ofDefect d)

/-! ## Names -/

/-- Defines a name in the innermost scope. -/
def define (name : String) (binding : Binding) : Lower SymbolId :=
  onSymbols fun t => t.define name binding

/-- The variable of a name. -/
def variableOf (name : String) : Lower SymbolId := fun s =>
  match s.symbols.findVariable name with
  | .ok id => .ok (id, s)
  | .error e => .error e

/-- Lowers something in a scope of its own. -/
def inScope {α : Type} (work : Lower α) : Lower α := do
  modify fun s => { s with symbols := s.symbols.pushScope }
  let a ← work
  onSymbols fun t => return ((), ← t.popScope)
  return a

/-- Records that the function may raise a fault. -/
def markMayFault : Lower Unit := modify fun s => { s with mayFault := true }

/-! ## Instructions and variables -/

/-- Appends an instruction to the current block. -/
def emit (inst : Inst) (ty : Ty) : Lower Value := onDraft (Drafting.emit inst ty)

/-- The type of a value. -/
def typeOf (v : Value) : Lower Ty := onDraft (Drafting.typeOf v)

/-- Reads a variable in the current block. -/
def readHere (var : SymbolId) : Lower Value := onDraft do
  Drafting.read var (← Drafting.currentBlock)

/-- Assigns a variable in the current block. -/
def writeHere (var : SymbolId) (v : Value) : Lower Unit := onDraft do
  Drafting.write var (← Drafting.currentBlock) v

/-- Defines a variable of a type and assigns it in the current block. -/
def introduce (name : String) (ty : Ty) (v : Value) : Lower SymbolId := do
  let var ← define name .var
  onDraft (Drafting.declare var ty)
  writeHere var v
  return var

/-! ## Conversions -/

/-- The value as one of the given type: integers become floating-point numbers and the other way
round, other types stay apart. -/
def coerce (v : Value) (target : Ty) : Lower Value := do
  let source ← typeOf v
  if source = target then return v
  else match source, target with
    | .int, .float => emit (.intToFloat v) .float
    | .float, .int => emit (.floatToInt v) .int
    | _, _ => defect (.inconvertible source target)

/-- The type in which two values meet: that of floating-point numbers if one of them is one. -/
def meet : Ty → Ty → Ty
  | .float, _ | _, .float => .float
  | _, _ => .int

/-- Is the value different from 0? -/
def truthy (v : Value) : Lower Value := do
  match ← typeOf v with
  | .int => emit (.intCompare .notEqual v (← emit (.intConst 0) .int)) .bool
  | .float => emit (.floatCompare .notEqual v (← emit (.floatConst 0.0) .float)) .bool
  | other => defect (.unbranchable other)

end Lower

end Abacus.Lowering
