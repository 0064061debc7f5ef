import Abacus.Lowering.State
import Abacus.Tree.Basic

/-!
# Lowering expressions

An expression becomes the value that holds its result. Two operands meet in one type; a comparison
gives the integer 0 or 1; an integer division checks its divisor and may raise a fault; a call of a
function that may raise one gets a handler.
-/

namespace Abacus.Lowering

open Abacus.Flow (Value Ty Arith Compare)

/-- What a message calls a node that is no expression. -/
def nodeText {α : Type} : Shape α → String
  | .program _ => "a program"
  | .list _ => "a statement list"
  | .letVar .. => "`let`"
  | .setVar .. => "`set`"
  | .ifElse .. => "`if`"
  | .forLoop .. => "`for`"
  | .giveBack _ => "`return`"
  | .fnDef .. => "a function definition"
  | .integer _ | .floating _ | .ident _ | .infixOp .. | .negate _ | .call .. => "an expression"

/-- What an operator between two operands becomes. -/
def operation : InfixOp → Arith ⊕ Compare
  | .add => .inl .add
  | .sub => .inl .sub
  | .mul => .inl .mul
  | .div => .inl .div
  | .less => .inr .less
  | .greater => .inr .greater
  | .equal => .inr .equal

/-- The name of the function that gives the circle constant, unless a name in scope hides it. -/
def piName : String := "pi"

/-- The circle constant, rounded to a double: 3.141592653589793. -/
def piValue : Float := 3.141592653589793

namespace Lower

/-- An operator between two values. -/
def infixOp (fault : FaultConfig) (op : InfixOp) (lhs rhs : Value) : Lower Value := do
  let ty := meet (← typeOf lhs) (← typeOf rhs)
  let lhs ← coerce lhs ty
  let rhs ← coerce rhs ty
  match operation op, ty with
  | .inr cmp, .float => emit (.boolToInt (← emit (.floatCompare cmp lhs rhs) .bool)) .int
  | .inr cmp, _ => emit (.boolToInt (← emit (.intCompare cmp lhs rhs) .bool)) .int
  | .inl arith, .float => emit (.floatArith arith lhs rhs) .float
  | .inl .div, _ => do
    let (quotient, _) ← onDraft (Drafting.checkedDiv fault lhs rhs)
    markMayFault
    return quotient
  | .inl arith, _ => emit (.intArith arith lhs rhs) .int

/-- The negative of a value: its difference from 0. -/
def negate (v : Value) : Lower Value := do
  match ← typeOf v with
  | .float => emit (.floatArith .sub (← emit (.floatConst 0.0) .float) v) .float
  | _ => emit (.intArith .sub (← emit (.intConst 0) .int) v) .int

/-- A call must have as many arguments as the function has parameters. -/
def checkArity (name : String) (expected found : Nat) : Lower Unit :=
  if found = expected then return ()
  else throw (.ofCause (.arity name expected found))

/-- Does a name call the circle constant? -/
def isPi (name : String) : Lower Bool :=
  return name = piName && ((← get).symbols.lookup? piName).isNone

/-- The call of a function with the given values, which are looked for by `values` once the name
and the number of arguments are right. -/
def callWith (fault : FaultConfig) (name : String) (count : Nat) (values : Lower (List Value)) :
    Lower Value := do
  if ← isPi name then
    checkArity name 0 count
    emit (.floatConst piValue) .float
  else
    let (_, arity, mayFault) ← fun s => match s.symbols.findFunction name with
      | .ok found => .ok (found, s)
      | .error e => .error e
    checkArity name arity count
    let arguments ← values
    if mayFault then
      let (result, _) ← onDraft (Drafting.invoke fault name arguments)
      return result
    else emit (.call name arguments) .int

mutual

/-- The value of an expression. -/
def expression (fault : FaultConfig) : Tree → Lower Value
  | .node span (.integer n) => located span (emit (.intConst n) .int)
  | .node span (.floating x) => located span (emit (.floatConst x) .float)
  | .node span (.ident name) => located span do readHere (← variableOf name)
  | .node span (.infixOp op left right) => located span do
    let lhs ← expression fault left
    let rhs ← expression fault right
    infixOp fault op lhs rhs
  | .node span (.negate operand) => located span do negate (← expression fault operand)
  | .node span (.call name arguments) => located span
    (callWith fault name arguments.items.length (argumentItems fault arguments))
  | .node span shape => located span (defect (.notExpression (nodeText shape)))
termination_by structural t => t

/-- The values of the items of an argument list, as integers. -/
def argumentItems (fault : FaultConfig) : Tree → Lower (List Value)
  | .node _ (.program items) => arguments fault items
  | .node _ (.list items) => arguments fault items
  | _ => return []
termination_by structural t => t

/-- The values of arguments, as integers. -/
def arguments (fault : FaultConfig) : List Tree → Lower (List Value)
  | [] => return []
  | first :: rest => do
    let v ← coerce (← expression fault first) .int
    return v :: (← arguments fault rest)
termination_by structural l => l

end

end Lower

end Abacus.Lowering
