import Abacus.Machine.Basic
import Abacus.Tree.Basic

/-!
# What a source text means

A source text is evaluated as one reads it, on its tree and without a flow graph: variables are looked
up by their names, innermost first, blocks are statements within statements, and a call evaluates the
body of the function called.

* `expression`, `statement`, `statements` — the parts of a body;
* `Definition.answer` — a function, where calls are answered by `Context.call`;
* `answer` — a function of a program, whose calls are answered in the same way;
* `definitions` — the functions of a source text.

A program may run for ever, so evaluation is given up (`Stop.exhausted`) where calls are nested too
deeply or a loop goes round too often. It is stuck (`Stop.stuck`) where the text makes no sense, as when
a name stands for nothing.
-/

namespace Abacus.Meaning

open Abacus.Machine (FaultReport)

/-! ## Numbers -/

/-- What expressions give and variables hold. -/
inductive Number where
  | int (value : Int64)
  | float (value : Float)

namespace Number

/-- The number as an integer. -/
def toInt : Number → Int64
  | int n => n
  | float x => x.toInt64

/-- The number as a floating-point number. -/
def toFloat : Number → Float
  | int n => n.toFloat
  | float x => x

/-- Conditions hold when they are different from 0. -/
def isNonzero : Number → Bool
  | int n => n != 0
  | float x => x != 0.0

/-- The number in the type of `other`. -/
def like (n other : Number) : Number :=
  match other with
  | int _ => int n.toInt
  | float _ => float n.toFloat

/-- What a comparison gives. -/
def truth (b : Bool) : Number := int (if b then 1 else 0)

/-- The difference from 0. -/
def negative : Number → Number
  | int n => int (0 - n)
  | float x => float (0.0 - x)

end Number

/-- An operator between integers, which wrap around. There is no quotient by 0. -/
def integers : InfixOp → Int64 → Int64 → Option Number
  | .add, a, b => some (.int (a + b))
  | .sub, a, b => some (.int (a - b))
  | .mul, a, b => some (.int (a * b))
  | .div, a, b => if b = 0 then none else some (.int (a / b))
  | .less, a, b => some (.truth (a < b))
  | .greater, a, b => some (.truth (b < a))
  | .equal, a, b => some (.truth (a == b))

/-- An operator between floating-point numbers. -/
def floats : InfixOp → Float → Float → Number
  | .add, a, b => .float (a + b)
  | .sub, a, b => .float (a - b)
  | .mul, a, b => .float (a * b)
  | .div, a, b => .float (a / b)
  | .less, a, b => .truth (a < b)
  | .greater, a, b => .truth (b < a)
  | .equal, a, b => .truth (a == b)

/-- An operator between numbers. If one of them is a floating-point number, so becomes the other. -/
def combine (op : InfixOp) : Number → Number → Option Number
  | .int a, .int b => integers op a b
  | a, b => some (floats op a.toFloat b.toFloat)

/-! ## Evaluation -/

/-- Why the evaluation of a body stops before its end. -/
inductive Stop where
  /-- A value is given back. -/
  | returned (value : Int64)
  /-- The function ends with a fault. -/
  | faulted
  /-- The evaluation is given up. -/
  | exhausted
  /-- The text makes no sense. -/
  | stuck

/-- The variables in scope, innermost first, and the faults that have been taken. -/
structure World where
  vars : List (String × Number)
  reports : List FaultReport

/-- Evaluates a part of a body. -/
abbrev Eval (α : Type) := ExceptT Stop (StateM World) α

/-- What a call comes to. -/
inductive Answer where
  | value (result : Int64)
  | fault
  | exhausted
  | stuck
  deriving DecidableEq

/-- What a body is evaluated in: the name of its function, the functions that are known in it, the code
of faults, what calls of functions come to, and how often a loop may go round. -/
structure Context where
  self : String
  visible : List String
  code : Int64
  call : String → List Int64 → Answer × List FaultReport
  rounds : Nat

/-- The value of a variable. -/
def lookup (name : String) : Eval Number := do
  match (← get).vars.lookup name with
  | some n => return n
  | none => throw .stuck

/-- Gives the innermost variable of a name another value. -/
def replace (name : String) (n : Number) : List (String × Number) → List (String × Number)
  | [] => []
  | (other, old) :: rest =>
    if other = name then (other, n) :: rest else (other, old) :: replace name n rest

/-- Assigns a variable, which keeps its type. -/
def assign (name : String) (n : Number) : Eval Unit := do
  let old ← lookup name
  modify fun w => { w with vars := replace name (n.like old) w.vars }

/-- A new variable. -/
def introduce (name : String) (n : Number) : Eval Unit :=
  modify fun w => { w with vars := (name, n) :: w.vars }

/-- The variables that are new after some work go out of scope. -/
def inScope (work : Eval Unit) : Eval Unit := do
  let outer := (← get).vars.length
  work
  modify fun w => { w with vars := w.vars.drop (w.vars.length - outer) }

/-- Adds reports. -/
def report (reports : List FaultReport) : Eval Unit :=
  modify fun w => { w with reports := w.reports ++ reports }

/-- The call of a function. A fault of the function itself passes on; that of another one is taken,
and the caller gives back 0. -/
def call (ctx : Context) (name : String) (arguments : List Int64) : Eval Number := do
  let (answer, reports) := ctx.call name arguments
  report reports
  match answer with
  | .value result => return .int result
  | .fault =>
    if name = ctx.self then throw .faulted
    else
      report [⟨ctx.self, ctx.code⟩]
      throw (.returned 0)
  | .exhausted => throw .exhausted
  | .stuck => throw .stuck

/-- An operator between two numbers. -/
def infixOp (op : InfixOp) (a b : Number) : Eval Number :=
  match combine op a b with
  | some n => return n
  | none => throw .faulted

/-- Does a name call the circle constant? -/
def isPi (ctx : Context) (name : String) : Eval Bool :=
  return name = "pi" && name ∉ ctx.visible && ((← get).vars.lookup name).isNone

mutual

/-- The value of an expression. -/
def expression (ctx : Context) : Tree → Eval Number
  | .node _ (.integer n) => return .int n
  | .node _ (.floating x) => return .float x
  | .node _ (.ident name) => lookup name
  | .node _ (.infixOp op left right) => do
    let a ← expression ctx left
    let b ← expression ctx right
    infixOp op a b
  | .node _ (.negate operand) => return (← expression ctx operand).negative
  | .node _ (.call name arguments) => do
    if ← isPi ctx name then return .float 3.141592653589793
    else call ctx name (← argumentItems ctx arguments)
  | .node _ _ => throw .stuck
termination_by structural t => t

/-- The values of the items of an argument list, as integers. -/
def argumentItems (ctx : Context) : Tree → Eval (List Int64)
  | .node _ (.program items) => arguments ctx items
  | .node _ (.list items) => arguments ctx items
  | _ => return []
termination_by structural t => t

/-- The values of arguments, as integers. -/
def arguments (ctx : Context) : List Tree → Eval (List Int64)
  | [] => return []
  | first :: rest => do
    let n ← expression ctx first
    return n.toInt :: (← arguments ctx rest)
termination_by structural l => l

end

/-- Counts a variable up. -/
def countUp (index : String) : Eval Unit := do
  assign index (.int ((← lookup index).toInt + 1))

/-- Goes round as long as the variable is less than the limit. -/
def count (index : String) (limit : Int64) (body : Eval Unit) : Nat → Eval Unit
  | 0 => throw .exhausted
  | rounds + 1 => do
    if (← lookup index).toInt < limit then
      body
      countUp index
      count index limit body rounds
    else return ()

mutual

/-- One statement; an expression gives its value. -/
def statement (ctx : Context) : Tree → Eval (Option Number)
  | .node _ (.letVar name value) => do
    introduce name (← expression ctx value)
    return none
  | .node _ (.setVar name value) => do
    assign name (← expression ctx value)
    return none
  | .node _ (.giveBack value) => do throw (.returned (← expression ctx value).toInt)
  | .node _ (.ifElse condition thenBody none) => do
    if (← expression ctx condition).isNonzero then inScope (items ctx thenBody)
    return none
  | .node _ (.ifElse condition thenBody (some elseBody)) => do
    if (← expression ctx condition).isNonzero then inScope (items ctx thenBody)
    else inScope (items ctx elseBody)
    return none
  | .node _ (.forLoop index bound body) => do
    let limit := (← expression ctx bound).toInt
    inScope do
      introduce index (.int 0)
      count index limit (inScope (items ctx body)) ctx.rounds
    return none
  | .node _ (.fnDef ..) => throw .stuck
  | .node _ (.program _) => throw .stuck
  | .node _ (.list _) => throw .stuck
  | .node span shape => return some (← expression ctx (.node span shape))
termination_by structural t => t

/-- The statements of a body. -/
def items (ctx : Context) : Tree → Eval Unit
  | .node _ (.program items) => do let _ ← statements ctx items
  | .node _ (.list items) => do let _ ← statements ctx items
  | _ => return ()
termination_by structural t => t

/-- Statements, one after the other; gives the value of the last of them that is an expression. -/
def statements (ctx : Context) : List Tree → Eval (Option Number)
  | [] => return none
  | first :: rest => do
    let n? ← statement ctx first
    let later? ← statements ctx rest
    return later? <|> n?
termination_by structural l => l

end

/-! ## Functions -/

/-- A function of a source text. `givesLast` tells whether control that reaches the end of the body
gives back the value of the last statement that is an expression, and not 0. -/
structure Definition where
  name : String
  parameters : List String
  body : List Tree
  givesLast : Bool
  visible : List String

/-- What a call of a function comes to, and the faults taken meanwhile. -/
def Definition.answer (d : Definition) (code : Int64)
    (call : String → List Int64 → Answer × List FaultReport) (rounds : Nat)
    (arguments : List Int64) : Answer × List FaultReport :=
  if arguments.length = d.parameters.length then
    let ctx : Context := ⟨d.name, d.visible, code, call, rounds⟩
    match statements ctx d.body ⟨(d.parameters.zip (arguments.map .int)).reverse, []⟩ with
    | (.ok last?, w) =>
      (.value (if d.givesLast then (last?.map Number.toInt).getD 0 else 0), w.reports)
    | (.error (.returned v), w) => (.value v, w.reports)
    | (.error .faulted, w) => (.fault, w.reports)
    | (.error .exhausted, w) => (.exhausted, w.reports)
    | (.error .stuck, w) => (.stuck, w.reports)
  else (.stuck, [])

/-- What a call of a function of a program comes to, where calls may be nested `depth` times. -/
def answer (code : Int64) (definition? : String → Option Definition) :
    Nat → String → List Int64 → Answer × List FaultReport
  | 0, _, _ => (.exhausted, [])
  | depth + 1, name, arguments =>
    match definition? name with
    | none => (.stuck, [])
    | some d => d.answer code (answer code definition? depth) (depth + 1) arguments

/-- Is the item a function definition? -/
def isDefinition : Tree → Bool
  | .node _ (.fnDef ..) => true
  | _ => false

/-- The functions that are defined among the items. Each of them knows those before it, and itself. -/
def functionsFrom (visible : List String) : List Tree → List Definition
  | [] => []
  | .node _ (.fnDef name parameters body) :: rest =>
    ⟨name, parameters, body.items, false, name :: visible⟩ :: functionsFrom (name :: visible) rest
  | _ :: rest => functionsFrom visible rest

/-- The functions of a source text; its top-level statements are one more function. -/
def definitions (visible : List String) (unitName : String) (items : List Tree) :
    List Definition :=
  let functions := functionsFrom visible items
  let rest := items.filter fun item => !isDefinition item
  if rest.isEmpty then functions
  else functions ++
    [⟨unitName, [], rest, true, unitName :: (functions.map Definition.name ++ visible)⟩]

end Abacus.Meaning
