import Abacus.Machine.Basic
import Abacus.Machine.Program

/-!
# The machine

A `Frame` is an activation of a function: where it is, what its values hold, and what it waits for
while a function that it called runs. Calls do not nest inside the machine: the callers stand on a
stack, so a program may call as deeply as its fuel allows.

* `Frame.enter` — a new activation;
* `jump` — control moves along an edge, and the phis of the target take their values all at once;
* `evaluate` — one instruction that is no call;
* `step` — one instruction or terminator;
* `deliver`, `settle` — what the end of an activation does to its callers;
* `Program.run` — a whole run.

Each instruction, phi and terminator costs one unit of fuel, taken before it is looked at.
-/

namespace Abacus.Machine

open Abacus.Flow (Function Value Block Inst Arith Compare)

/-! ## Activations -/

/-- Where the result of a call goes. -/
inductive Waiting where
  /-- Into the value of the call, after which the next instruction follows. -/
  | call (slot : Value)
  /-- Into the value of the call, after which `normal` follows; a fault goes to `unwind`. -/
  | invoke (slot : Value) (normal unwind : Block)
  deriving DecidableEq, Repr

/-- An activation of a function. `next` is the position of the next instruction in the block;
`inFlight` is a fault that has arrived and has not been picked up. -/
structure Frame where
  function : Function
  block : Block
  next : Nat
  values : Array (Option Scalar)
  inFlight : Option Fault
  waiting : Option Waiting

namespace Frame

/-- The activation stops because its function is malformed. -/
def malformed {α : Type} (frame : Frame) (detail : Malformation) : Except RuntimeError α :=
  .error (.malformed frame.function.name detail)

/-- What a value holds, if it has been assigned. -/
def value? (frame : Frame) (v : Value) : Option Scalar := (frame.values[v.index]?).join

/-- Assigns a value. -/
def assign (frame : Frame) (v : Value) (content : Scalar) : Frame :=
  { frame with values := frame.values.setIfInBounds v.index (some content) }

theorem value?_assign (frame : Frame) {v : Value} (content : Scalar)
    (h : v.index < frame.values.size) : (frame.assign v content).value? v = some content := by
  simp [value?, assign, h]

theorem value?_assign_of_ne (frame : Frame) {v other : Value} (content : Scalar)
    (h : v.index ≠ other.index) : (frame.assign v content).value? other = frame.value? other := by
  simp [value?, assign, Array.getElem?_setIfInBounds_ne h]

/-- Assigns several values, all read before. -/
def assignAll (frame : Frame) (contents : List (Value × Scalar)) : Frame :=
  contents.foldl (fun frame (v, content) => frame.assign v content) frame

/-- Goes to the next instruction. -/
def skip (frame : Frame) : Frame := { frame with next := frame.next + 1 }

/-- Reads a value. -/
def read (frame : Frame) (v : Value) : Except RuntimeError Scalar :=
  match frame.value? v with
  | some content => .ok content
  | none => frame.malformed (.undefinedRead v)

/-- Reads an integer. -/
def readInt (frame : Frame) (v : Value) : Except RuntimeError Int64 := do
  match ← frame.read v with
  | .int n => return n
  | other => frame.malformed (.notInt other)

/-- Reads a floating-point number. -/
def readFloat (frame : Frame) (v : Value) : Except RuntimeError Float := do
  match ← frame.read v with
  | .float x => return x
  | other => frame.malformed (.notFloat other)

/-- Reads a fault. -/
def readFault (frame : Frame) (v : Value) : Except RuntimeError Fault := do
  match ← frame.read v with
  | .fault fault => return fault
  | other => frame.malformed (.notFault other)

/-- A new activation with the given arguments; the parameters that the entry reads have their
values from the start. -/
def enter (f : Function) (arguments : List Scalar) : Except RuntimeError Frame :=
  if arguments.length = f.params.length then
    let values := (f.block Function.entry).insts.foldl
      (fun values v => match f.inst v with
        | .param index => values.setIfInBounds v.index arguments[index]?
        | _ => values)
      (Array.replicate f.values.size none)
    .ok ⟨f, Function.entry, 0, values, none, none⟩
  else .error (.arityMismatch f.name f.params.length arguments.length)

end Frame

/-! ## Fuel and reports -/

/-- What a run has used and reported so far. -/
structure Tally where
  steps : Nat
  reports : Array FaultReport

/-- A part of a run: it counts, reports, and may stop with an error. -/
abbrev Exec (α : Type) := StateT Tally (Except RuntimeError) α

/-- Counts one instruction, if there is fuel for it. -/
def burn (fuel : Nat) : Exec Unit := fun tally =>
  if tally.steps < fuel then .ok ((), { tally with steps := tally.steps + 1 })
  else .error (.fuelExhausted fuel)

/-- Reports a fault that a handler has taken. -/
def report (function : String) (code : Int64) : Exec Unit :=
  modify fun tally => { tally with reports := tally.reports.push ⟨function, code⟩ }

/-! ## Moving along an edge -/

/-- What the phi of `target` takes when control comes from `source`. -/
def incomingValue (fuel : Nat) (frame : Frame) (source target : Block) (phi : Value) :
    Exec (Value × Scalar) := do
  burn fuel
  match frame.function.inst phi with
  | .phi incoming =>
    match incoming.find? fun (pred, _) => pred = source with
    | some (_, v) => return (phi, ← frame.read v)
    | none => frame.malformed (.noOperand phi source target)
  | _ => frame.malformed (.notPhi phi)

/-- Control moves from the block of the frame to `target`. All phis are read before the first is
assigned. -/
def jump (fuel : Nat) (frame : Frame) (target : Block) : Exec Frame := do
  let phis := (frame.function.block target).phis
  let contents ← phis.mapM (incomingValue fuel frame frame.block target)
  return { frame.assignAll contents with block := target, next := 0 }

/-! ## Instructions -/

/-- Arithmetic on 64-bit integers: results wrap around, and division drops the fraction. The
divisor is not 0. -/
def intArith : Arith → Int64 → Int64 → Int64
  | .add, a, b => a + b
  | .sub, a, b => a - b
  | .mul, a, b => a * b
  | .div, a, b => a / b

/-- Arithmetic on floating-point numbers. -/
def floatArith : Arith → Float → Float → Float
  | .add, a, b => a + b
  | .sub, a, b => a - b
  | .mul, a, b => a * b
  | .div, a, b => a / b

/-- Comparison of integers. -/
def intCompare : Compare → Int64 → Int64 → Bool
  | .less, a, b => a < b
  | .greater, a, b => b < a
  | .equal, a, b => a == b
  | .notEqual, a, b => a != b

/-- Comparison of floating-point numbers; "not a number" is different from everything. -/
def floatCompare : Compare → Float → Float → Bool
  | .less, a, b => a < b
  | .greater, a, b => b < a
  | .equal, a, b => a == b
  | .notEqual, a, b => a != b

/-- The result of an instruction that is no call, and the frame after it. -/
def evaluate (frame : Frame) : Inst → Exec (Scalar × Frame)
  | .intConst n => return (.int n, frame)
  | .floatConst x => return (.float x, frame)
  | .param index => frame.malformed (.paramOutsideEntry index)
  | .intArith op lhs rhs => do
    let a ← frame.readInt lhs
    let b ← frame.readInt rhs
    if op = .div && b == 0 then throw (.divisionByZero frame.function.name)
    return (.int (intArith op a b), frame)
  | .floatArith op lhs rhs => do
    let a ← frame.readFloat lhs
    let b ← frame.readFloat rhs
    return (.float (floatArith op a b), frame)
  | .intCompare op lhs rhs => do
    let a ← frame.readInt lhs
    let b ← frame.readInt rhs
    return (.bool (intCompare op a b), frame)
  | .floatCompare op lhs rhs => do
    let a ← frame.readFloat lhs
    let b ← frame.readFloat rhs
    return (.bool (floatCompare op a b), frame)
  | .boolToInt v => do
    match ← frame.read v with
    | .bool b => return (.int (if b then 1 else 0), frame)
    | other => frame.malformed (.notBool other)
  | .intToFloat v => return (.float (← frame.readInt v).toFloat, frame)
  | .floatToInt v => return (.int (← frame.readFloat v).toInt64, frame)
  | .phi _ => frame.malformed .phiOutsideHead
  | .call .. => frame.malformed .callAsInstruction
  | .faultAlloc code typeId => return (.fault ⟨code, typeId⟩, frame)
  | .landingPad =>
    match frame.inFlight with
    | some fault => return (.fault fault, { frame with inFlight := none })
    | none => frame.malformed .landingWithoutFault
  | .faultSelector v => return (.int (← frame.readFault v).typeId, frame)
  | .faultTypeId typeId => return (.int typeId, frame)
  | .beginCatch v => return (.int (← frame.readFault v).code, frame)
  | .reportFault v => do
    report frame.function.name (← frame.readInt v)
    return (.unit, frame)
  | .endCatch => return (.unit, frame)
  | .callUnexpected _ => throw (.unexpected frame.function.name)

/-! ## One step -/

/-- How an activation ends. -/
inductive Outcome where
  | returned (value : Scalar)
  | unwinding (fault : Fault)
  deriving DecidableEq

/-- What one step of an activation leads to. -/
inductive Progress where
  | going (frame : Frame)
  | calling (caller : Frame) (callee : Function) (arguments : List Scalar)
  | ended (outcome : Outcome)

/-- A call: the function is looked up, then the arguments are read. -/
def callFrom (p : Program) (frame : Frame) (callee : String) (arguments : List Value)
    (waiting : Waiting) : Except RuntimeError Progress := do
  match p.get? callee with
  | none => .error (.unknownFunction callee)
  | some f =>
    let contents ← arguments.mapM frame.read
    return .calling { frame with waiting := some waiting } f contents

/-- The parameters of the entry were assigned when the frame was entered. -/
def isBoundParam (frame : Frame) (v : Value) (inst : Inst) : Bool :=
  match inst with
  | .param _ => frame.block = Function.entry && (frame.value? v).isSome
  | _ => false

/-- Runs the instruction that gives `v`. -/
def stepInst (p : Program) (frame : Frame) (v : Value) : Exec Progress := do
  let inst := frame.function.inst v
  match inst with
  | .call callee arguments => callFrom p frame callee arguments (.call v)
  | _ =>
    if isBoundParam frame v inst then return .going frame.skip
    else
      let (content, frame) ← evaluate frame inst
      return .going (frame.assign v content).skip

/-- Which way a branch goes: a truth value decides itself, an integer by being different
from 0. -/
def isTaken (frame : Frame) (condition : Value) : Except RuntimeError Bool := do
  match ← frame.read condition with
  | .bool b => return b
  | .int n => return n != 0
  | other => frame.malformed (.branchOn other)

/-- Raises the fault that `v` holds. -/
def raiseFrom (frame : Frame) (v : Value) : Except RuntimeError Progress := do
  match ← frame.read v with
  | .fault fault => return .ended (.unwinding fault)
  | _ => frame.malformed (.raiseOf v)

/-- Runs a terminator. -/
def stepTerminator (p : Program) (fuel : Nat) (frame : Frame) : Flow.Terminator → Exec Progress
  | .jump target => return .going (← jump fuel frame target)
  | .branch condition thenDest elseDest => do
    let taken ← isTaken frame condition
    return .going (← jump fuel frame (if taken then thenDest else elseDest))
  | .ret v => return .ended (.returned (← frame.read v))
  | .invoke call normal unwind =>
    match frame.function.inst call with
    | .call callee arguments => callFrom p frame callee arguments (.invoke call normal unwind)
    | _ => frame.malformed (.invokeOf call)
  | .raise v | .resume v => raiseFrom frame v
  | .unreachable => throw (.unreachable frame.function.name)

/-- Runs the next instruction of a frame, or the end of its block. -/
def step (p : Program) (fuel : Nat) (frame : Frame) : Exec Progress := do
  burn fuel
  let info := frame.function.block frame.block
  match info.insts[frame.next]? with
  | some v => stepInst p frame v
  | none =>
    match info.terminator? with
    | some terminator => stepTerminator p fuel frame terminator
    | none => frame.malformed (.noTerminator frame.block)

/-! ## Returning to callers -/

/-- Gives the outcome of a call to the frame that waits for it. A fault that the frame does not
wait for ends it as well. -/
def deliver (fuel : Nat) (caller : Frame) (outcome : Outcome) : Exec (Except Fault Frame) := do
  let resumed := { caller with waiting := none }
  match outcome, caller.waiting with
  | .returned content, some (.call slot) => return .ok (resumed.assign slot content).skip
  | .returned content, some (.invoke slot normal _) =>
    return .ok (← jump fuel (resumed.assign slot content) normal)
  | .unwinding fault, some (.invoke _ _ unwind) =>
    return .ok (← jump fuel { resumed with inFlight := some fault } unwind)
  | .unwinding fault, some (.call _) => return .error fault
  | _, none => caller.malformed .callerNotWaiting

/-- A running program: the innermost activation and its callers, innermost first. -/
structure Stack where
  top : Frame
  callers : List Frame

/-- What the program has come to: it runs on, or it ends with a value. -/
inductive Status where
  | running (stack : Stack)
  | finished (value : Int64)

/-- The end of the outermost activation. -/
def finish (function : String) : Outcome → Except RuntimeError Status
  | .returned (.int n) => .ok (.finished n)
  | .returned other => .error (.malformed function (.resultOf other))
  | .unwinding fault => .error (.uncaughtFault function fault.code)

/-- The activation of `function` has ended: its outcome goes to its callers, innermost first,
until one of them goes on. -/
def settle (fuel : Nat) (function : String) (outcome : Outcome) : List Frame → Exec Status
  | [] => finish function outcome
  | caller :: callers => do
    match ← deliver fuel caller outcome with
    | .ok frame => return .running ⟨frame, callers⟩
    | .error fault => settle fuel caller.function.name (.unwinding fault) callers

/-- One step of a program. -/
def advance (p : Program) (fuel : Nat) (stack : Stack) : Exec Status := do
  let function := stack.top.function.name
  match ← step p fuel stack.top with
  | .going frame => return .running ⟨frame, stack.callers⟩
  | .calling caller callee arguments =>
    return .running ⟨← Frame.enter callee arguments, caller :: stack.callers⟩
  | .ended outcome => settle fuel function outcome stack.callers

/-- Runs on for at most the given number of steps. -/
def runFrom (p : Program) (fuel : Nat) : Nat → Stack → Tally → Except RuntimeError Execution
  | 0, _, _ => .error (.fuelExhausted fuel)
  | rounds + 1, stack, tally =>
    match advance p fuel stack tally with
    | .error e => .error e
    | .ok (.running stack, tally) => runFrom p fuel rounds stack tally
    | .ok (.finished value, tally) => .ok ⟨value, tally.reports.toList, tally.steps⟩

/-- The fuel of a run for which none is given. -/
def defaultFuel : Nat := 10000000

/-- Calls the function `entry` with integers and runs it to its end. A step burns at least one unit
of fuel, so `fuel + 1` steps are never all made. -/
def Program.run (p : Program) (entry : String) (arguments : List Int64) (fuel : Nat) :
    Except RuntimeError Execution := do
  match p.get? entry with
  | none => .error (.unknownFunction entry)
  | some f =>
    let frame ← Frame.enter f (arguments.map .int)
    runFrom p fuel (fuel + 1) ⟨frame, []⟩ ⟨0, #[]⟩

end Abacus.Machine
