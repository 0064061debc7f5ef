import Abacus.Flow.Text

/-!
# Running programs: values and outcomes

What a running program computes with (`Scalar`), what a run gives (`Execution`), and why a run may
stop without a result (`RuntimeError`).
-/

namespace Abacus.Machine

open Abacus.Flow (Value Block)

/-- A fault: what went wrong, and the type by which handlers recognise it. -/
structure Fault where
  code : Int64
  typeId : Int64
  deriving DecidableEq, Repr, Inhabited

/-- What a value holds at run time. -/
inductive Scalar where
  | int (value : Int64)
  | float (value : Float)
  | bool (value : Bool)
  | fault (value : Fault)
  | unit
  deriving DecidableEq, Inhabited

/-- The content of a value with its kind, as messages show it. -/
def Scalar.text : Scalar → String
  | int value => "Int(" ++ intText value ++ ")"
  | float value => "Float(" ++ floatText value ++ ")"
  | bool value => "Bool(" ++ (if value then "true" else "false") ++ ")"
  | fault value =>
    "Fault(" ++ Flow.longRecord "Fault" [("code", intText value.code),
      ("type_id", intText value.typeId)] ++ ")"
  | unit => "Unit"

/-- A fault that a handler has taken: the function of the handler and the code. -/
structure FaultReport where
  function : String
  code : Int64
  deriving DecidableEq, Repr

/-- The line of a report. -/
def FaultReport.text (r : FaultReport) : String :=
  "fault " ++ intText r.code ++ " caught in @" ++ r.function

/-- What a run gives: a value, the faults taken on the way in order, and the number of
instructions. -/
structure Execution where
  value : Int64
  reports : List FaultReport
  steps : Nat
  deriving DecidableEq, Repr

/-- What a function can do wrong only if it is malformed. -/
inductive Malformation where
  | undefinedRead (value : Value)
  | notInt (found : Scalar)
  | notFloat (found : Scalar)
  | notFault (found : Scalar)
  | notBool (found : Scalar)
  | branchOn (found : Scalar)
  | raiseOf (value : Value)
  | invokeOf (value : Value)
  | resultOf (found : Scalar)
  | paramOutsideEntry (index : Nat)
  | phiOutsideHead
  | callAsInstruction
  | landingWithoutFault
  | noTerminator (block : Block)
  | notPhi (value : Value)
  | noOperand (phi : Value) (source target : Block)
  | callerNotWaiting
  deriving DecidableEq

/-- The words for a malformation. -/
def Malformation.text : Malformation → String
  | undefinedRead value => "read of undefined " ++ value.text
  | notInt found => "expected i64, found " ++ found.text
  | notFloat found => "expected f64, found " ++ found.text
  | notFault found => "expected fault, found " ++ found.text
  | notBool found => "zext of " ++ found.text
  | branchOn found => "branch on " ++ found.text
  | raiseOf value => "raise of non-fault " ++ value.text
  | invokeOf value => "invoke of non-call " ++ value.text
  | resultOf found => "returned non-integer " ++ found.text
  | paramOutsideEntry index => "param " ++ toString index ++ " outside the entry block"
  | phiOutsideHead => "phi outside block head"
  | callAsInstruction => "call evaluated as a pure instruction"
  | landingWithoutFault => "landingpad without a fault"
  | noTerminator block => block.text ++ " has no terminator"
  | notPhi value => value.text ++ " is not a phi"
  | noOperand phi source target =>
    "phi " ++ phi.text ++ " has no operand for edge " ++ source.text ++ " -> " ++ target.text
  | callerNotWaiting => "callee returned to a frame that was not waiting"

/-- Why a run stops without a result. -/
inductive RuntimeError where
  | unknownFunction (name : String)
  | arityMismatch (function : String) (expected found : Nat)
  | uncaughtFault (function : String) (code : Int64)
  | unexpected (function : String)
  | unreachable (function : String)
  | divisionByZero (function : String)
  | fuelExhausted (fuel : Nat)
  | malformed (function : String) (detail : Malformation)
  deriving DecidableEq

/-- The message of an error. -/
def RuntimeError.message : RuntimeError → String
  | unknownFunction name => "unknown function @" ++ name
  | arityMismatch function expected found =>
    "@" ++ function ++ " expects " ++ toString expected ++ " arguments, got " ++ toString found
  | uncaughtFault function code =>
    "uncaught fault (code " ++ intText code ++ ") escaped @" ++ function
  | unexpected function => "unexpected fault in @" ++ function
  | unreachable function => "reached unreachable code in @" ++ function
  | divisionByZero function => "integer division by zero in @" ++ function
  | fuelExhausted fuel => "fuel exhausted after " ++ toString fuel ++ " instructions"
  | malformed function detail => "malformed IR in @" ++ function ++ ": " ++ detail.text

end Abacus.Machine
