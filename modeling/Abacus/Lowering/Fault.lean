import Abacus.Lowering.Draft

/-!
# Faults

An integer division by zero raises a fault. It is raised in a block of its own (`checkedDiv`), and
a call of a function that may raise one becomes an `invoke` with a handler (`invoke`): a fault of
this program is reported and makes the caller give back 0, a fault of another type is passed on,
and one of a negative type stops the program.

The blocks made here have one predecessor each and are sealed at once.
-/

namespace Abacus.Lowering

open Abacus.Flow (Value Block)

/-- The code of the faults that a program raises, and the type by which it knows its own. -/
structure FaultConfig where
  code : Int64
  typeId : Int64
  deriving DecidableEq, Repr

/-- Code and type where none are given. -/
def FaultConfig.default : FaultConfig := ⟨1, 1⟩

/-- The stages between a call that may fault and the end of its handler. -/
inductive FaultState where
  /-- No fault: the call has returned. -/
  | normal
  /-- A fault has arrived, and its type is looked at. -/
  | checking
  /-- The fault is not of this program. -/
  | faulted
  /-- The fault is of this program: it is reported, and 0 given back. -/
  | caught
  /-- The fault is passed on to the caller. -/
  | cleanup
  /-- The fault belongs to nobody. -/
  | unexpected
  deriving DecidableEq, Repr

namespace FaultState

/-- The label of the block of a stage. -/
def label : FaultState → String
  | normal => "fault.normal"
  | checking => "fault.landing"
  | faulted => "fault.faulted"
  | caught => "fault.caught"
  | cleanup => "fault.cleanup"
  | unexpected => "fault.unexpected"

/-- All stages. -/
def all : List FaultState := [normal, checking, faulted, caught, cleanup, unexpected]

end FaultState

/-- The blocks of a checked division: where the divisor is looked at, where the fault is raised, and
where the quotient is. -/
structure DivisionSites where
  check : Block
  zero : Block
  okay : Block
  deriving DecidableEq, Repr

/-- The blocks of a call that may fault, one for each stage. -/
structure InvokeSites where
  normal : Block
  landing : Block
  caught : Block
  faulted : Block
  unexpected : Block
  cleanup : Block
  deriving DecidableEq, Repr

/-- The block of a stage. -/
def InvokeSites.block (sites : InvokeSites) : FaultState → Block
  | .normal => sites.normal
  | .checking => sites.landing
  | .faulted => sites.faulted
  | .caught => sites.caught
  | .cleanup => sites.cleanup
  | .unexpected => sites.unexpected

namespace Drafting

/-- The quotient of two integers, after a check of the divisor. The block of the quotient is current
afterwards. -/
def checkedDiv (config : FaultConfig) (lhs rhs : Value) : Drafting (Value × DivisionSites) := do
  let check ← currentBlock
  let zeroBlock ← newBlock "div.zero"
  let okay ← newBlock "div.ok"
  let zero ← emit (.intConst 0) .int
  let isZero ← emit (.intCompare .equal rhs zero) .bool
  terminate (.branch isZero zeroBlock okay)
  sealBlock zeroBlock
  sealBlock okay
  setCurrent zeroBlock
  let fault ← emit (.faultAlloc config.code config.typeId) .fault
  terminate (.raise fault)
  setCurrent okay
  let quotient ← emit (.intArith .div lhs rhs) .int
  return (quotient, ⟨check, zeroBlock, okay⟩)

/-- The blocks of a call that may fault. -/
def newInvokeSites : Drafting InvokeSites := do
  let normal ← newBlock FaultState.normal.label
  let landing ← newBlock FaultState.checking.label
  let caught ← newBlock FaultState.caught.label
  let faulted ← newBlock FaultState.faulted.label
  let unexpected ← newBlock FaultState.unexpected.label
  let cleanup ← newBlock FaultState.cleanup.label
  return ⟨normal, landing, caught, faulted, unexpected, cleanup⟩

/-- The landing block: it tells whether the fault is of this program. Gives the fault and its
type. -/
def fillLanding (config : FaultConfig) (sites : InvokeSites) : Drafting (Value × Value) := do
  setCurrent sites.landing
  let pad ← emit .landingPad .fault
  let selector ← emit (.faultSelector pad) .int
  let typeId ← emit (.faultTypeId config.typeId) .int
  let isOurs ← emit (.intCompare .equal selector typeId) .bool
  terminate (.branch isOurs sites.caught sites.faulted)
  sealBlock sites.caught
  sealBlock sites.faulted
  return (pad, selector)

/-- The handler: it reports the fault and gives back 0. -/
def fillCaught (sites : InvokeSites) (pad : Value) : Drafting Unit := do
  setCurrent sites.caught
  let code ← emit (.beginCatch pad) .int
  let _ ← emit (.reportFault code) .unit
  let _ ← emit .endCatch .unit
  let zero ← emit (.intConst 0) .int
  terminate (.ret zero)

/-- What happens to faults of other types: a negative type belongs to nobody. -/
def fillFaulted (sites : InvokeSites) (pad selector : Value) : Drafting Unit := do
  setCurrent sites.faulted
  let zero ← emit (.intConst 0) .int
  let isForeign ← emit (.intCompare .less selector zero) .bool
  terminate (.branch isForeign sites.unexpected sites.cleanup)
  sealBlock sites.unexpected
  sealBlock sites.cleanup
  setCurrent sites.unexpected
  let _ ← emit (.callUnexpected pad) .unit
  terminate .unreachable
  setCurrent sites.cleanup
  terminate (.resume pad)

/-- A call that may fault, with its handler. The block in which the call has returned is current
afterwards. -/
def invoke (config : FaultConfig) (callee : String) (arguments : List Value) :
    Drafting (Value × InvokeSites) := do
  let sites ← newInvokeSites
  let result ← build fun b => b.invoke callee arguments .int sites.normal sites.landing
  sealBlock sites.normal
  sealBlock sites.landing
  let (pad, selector) ← fillLanding config sites
  fillCaught sites pad
  fillFaulted sites pad selector
  setCurrent sites.normal
  return (result, sites)

end Drafting

end Abacus.Lowering
