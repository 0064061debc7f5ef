import Abacus.Lowering.Unit

/-!
# Lowering with other searches

Lowering asks for two things about variables: what a variable holds in a block (`Drafting.read`), and that
a block be sealed (`Drafting.sealBlock`). Here is lowering once more, line by line, with these two handed
to it. Given the two themselves it is lowering. Given others it differs from lowering as soon as it comes
to a draft on which they differ, so it tells on which drafts lowering searches.

* `Searches` — what is handed to lowering;
* `Supplied.expression`, `Supplied.statement` — expressions and statements with what is handed over;
* `Supplied.lowerUnit` — units.
-/

namespace Abacus.Lowering

open Abacus.Flow (Value Block Ty Function Builder)

/-- How variables are read and blocks are sealed. -/
structure Searches where
  read : SymbolId → Block → Drafting Value
  sealBlock : Block → Drafting Unit

/-- As lowering does it. -/
def Searches.own : Searches := ⟨Drafting.read, Drafting.sealBlock⟩

namespace Supplied

open Drafting (emit newBlock newInvokeSites fillCaught currentBlock setCurrent terminate build)
open Lower (onDraft located inScope define defect typeOf variableOf writeHere introduce meet coerce
  truthy markMayFault checkArity isPi jumpTo assign)

variable (S : Searches)

/-! ## Faults -/

/-- The quotient of two integers, after a check of the divisor. -/
def checkedDiv (config : FaultConfig) (lhs rhs : Value) : Drafting (Value × DivisionSites) := do
  let check ← currentBlock
  let zeroBlock ← newBlock "div.zero"
  let okay ← newBlock "div.ok"
  let zero ← emit (.intConst 0) .int
  let isZero ← emit (.intCompare .equal rhs zero) .bool
  terminate (.branch isZero zeroBlock okay)
  S.sealBlock zeroBlock
  S.sealBlock okay
  setCurrent zeroBlock
  let fault ← emit (.faultAlloc config.code config.typeId) .fault
  terminate (.raise fault)
  setCurrent okay
  let quotient ← emit (.intArith .div lhs rhs) .int
  return (quotient, ⟨check, zeroBlock, okay⟩)

/-- The landing block of a call. -/
def fillLanding (config : FaultConfig) (sites : InvokeSites) : Drafting (Value × Value) := do
  setCurrent sites.landing
  let pad ← emit .landingPad .fault
  let selector ← emit (.faultSelector pad) .int
  let typeId ← emit (.faultTypeId config.typeId) .int
  let isOurs ← emit (.intCompare .equal selector typeId) .bool
  terminate (.branch isOurs sites.caught sites.faulted)
  S.sealBlock sites.caught
  S.sealBlock sites.faulted
  return (pad, selector)

/-- What happens to faults of other types. -/
def fillFaulted (sites : InvokeSites) (pad selector : Value) : Drafting Unit := do
  setCurrent sites.faulted
  let zero ← emit (.intConst 0) .int
  let isForeign ← emit (.intCompare .less selector zero) .bool
  terminate (.branch isForeign sites.unexpected sites.cleanup)
  S.sealBlock sites.unexpected
  S.sealBlock sites.cleanup
  setCurrent sites.unexpected
  let _ ← emit (.callUnexpected pad) .unit
  terminate .unreachable
  setCurrent sites.cleanup
  terminate (.resume pad)

/-- A call that may fault, with its handler. -/
def invoke (config : FaultConfig) (callee : String) (arguments : List Value) :
    Drafting (Value × InvokeSites) := do
  let sites ← newInvokeSites
  let result ← build fun b => b.invoke callee arguments .int sites.normal sites.landing
  S.sealBlock sites.normal
  S.sealBlock sites.landing
  let (pad, selector) ← fillLanding S config sites
  fillCaught sites pad
  fillFaulted S sites pad selector
  setCurrent sites.normal
  return (result, sites)

/-! ## Expressions -/

/-- Reads a variable in the current block. -/
def readHere (var : SymbolId) : Lower Value := onDraft do
  S.read var (← currentBlock)

/-- An operator between two values. -/
def infixOp (fault : FaultConfig) (op : InfixOp) (lhs rhs : Value) : Lower Value := do
  let ty := meet (← typeOf lhs) (← typeOf rhs)
  let lhs ← coerce lhs ty
  let rhs ← coerce rhs ty
  match operation op, ty with
  | .inr cmp, .float =>
    Lower.emit (.boolToInt (← Lower.emit (.floatCompare cmp lhs rhs) .bool)) .int
  | .inr cmp, _ => Lower.emit (.boolToInt (← Lower.emit (.intCompare cmp lhs rhs) .bool)) .int
  | .inl arith, .float => Lower.emit (.floatArith arith lhs rhs) .float
  | .inl .div, _ => do
    let (quotient, _) ← onDraft (checkedDiv S fault lhs rhs)
    markMayFault
    return quotient
  | .inl arith, _ => Lower.emit (.intArith arith lhs rhs) .int

/-- The call of a function with the given values. -/
def callWith (fault : FaultConfig) (name : String) (count : Nat) (values : Lower (List Value)) :
    Lower Value := do
  if ← isPi name then
    checkArity name 0 count
    Lower.emit (.floatConst piValue) .float
  else
    let (_, arity, mayFault) ← fun s => match s.symbols.findFunction name with
      | .ok found => .ok (found, s)
      | .error e => .error e
    checkArity name arity count
    let arguments ← values
    if mayFault then
      let (result, _) ← onDraft (invoke S fault name arguments)
      return result
    else Lower.emit (.call name arguments) .int

mutual

/-- The value of an expression. -/
def expression (fault : FaultConfig) : Tree → Lower Value
  | .node span (.integer n) => located span (Lower.emit (.intConst n) .int)
  | .node span (.floating x) => located span (Lower.emit (.floatConst x) .float)
  | .node span (.ident name) => located span do readHere S (← variableOf name)
  | .node span (.infixOp op left right) => located span do
    let lhs ← expression fault left
    let rhs ← expression fault right
    infixOp S fault op lhs rhs
  | .node span (.negate operand) => located span do Lower.negate (← expression fault operand)
  | .node span (.call name arguments) => located span
    (callWith S fault name arguments.items.length (argumentItems fault arguments))
  | .node span shape => located span (defect (.notExpression (nodeText shape)))
termination_by structural t => t

/-- The values of the items of an argument list, as integers. -/
def argumentItems (fault : FaultConfig) : Tree → Lower (List Value)
  | .node _ (.program items) => arguments fault items
  | .node _ (.list items) => arguments fault items
  | _ => return []
termination_by structural t => t

/-- The values of arguments, as integers. -/
def arguments (fault : FaultConfig) : List Tree → Lower (List Value)
  | [] => return []
  | first :: rest => do
    let v ← coerce (← expression fault first) .int
    return v :: (← arguments fault rest)
termination_by structural l => l

end

/-! ## Statements -/

/-- Gives a value back, and goes on in a block of its own. -/
def giveBack (v : Value) : Drafting Unit := do
  terminate (.ret v)
  let dead ← newBlock "after_return"
  setCurrent dead
  S.sealBlock dead

/-- Two ways to go on. Gives the block of the second one and the block in which both meet. -/
def split (test : Value) : Drafting (Block × Block) := do
  let thenBlock ← newBlock "if.then"
  let elseBlock ← newBlock "if.else"
  let join ← newBlock "if.join"
  terminate (.branch test thenBlock elseBlock)
  S.sealBlock thenBlock
  S.sealBlock elseBlock
  setCurrent thenBlock
  return (elseBlock, join)

/-- Both ways meet. -/
def joinWays (join : Block) : Drafting Unit := do
  S.sealBlock join
  setCurrent join

/-- Runs one of two bodies, and goes on in a block in which both meet. -/
def ifElse (condition : Value) (thenBody elseBody : Lower Unit) : Lower Unit := do
  let test ← truthy condition
  let (elseBlock, join) ← onDraft (split S test)
  thenBody
  jumpTo join
  onDraft (setCurrent elseBlock)
  elseBody
  jumpTo join
  onDraft (joinWays S join)

/-- The test of a loop. Gives the header, the block at the end of the body and the exit. -/
def loopHead (var : SymbolId) (bound : Value) : Drafting (Block × Block × Block) := do
  let header ← newBlock "for.header"
  let bodyBlock ← newBlock "for.body"
  let bodyEnd ← newBlock "for.body_end"
  let exit ← newBlock "for.end"
  terminate (.jump header)
  setCurrent header
  let current ← S.read var header
  let inRange ← emit (.intCompare .less current bound) .bool
  terminate (.branch inRange bodyBlock exit)
  S.sealBlock bodyBlock
  setCurrent bodyBlock
  return (header, bodyEnd, exit)

/-- Counts on, and goes back to the header. -/
def loopTail (var : SymbolId) (header bodyEnd exit : Block) : Drafting Unit := do
  S.sealBlock bodyEnd
  setCurrent bodyEnd
  let current ← S.read var bodyEnd
  let one ← emit (.intConst 1) .int
  let next ← emit (.intArith .add current one) .int
  terminate (.jump header)
  Drafting.write var bodyEnd next
  S.sealBlock header
  S.sealBlock exit
  setCurrent exit

/-- Counts a variable from 0 while it is less than the bound. -/
def forLoop (index : String) (bound : Value) (body : Lower Unit) : Lower Unit := inScope do
  let var ← define index .var
  onDraft (Drafting.declare var .int)
  writeHere var (← Lower.emit (.intConst 0) .int)
  let (header, bodyEnd, exit) ← onDraft (loopHead S var bound)
  body
  jumpTo bodyEnd
  onDraft (loopTail S var header bodyEnd exit)

mutual

/-- One statement; an expression gives its value. -/
def statement (fault : FaultConfig) : Tree → Lower (Option Value)
  | .node span (.letVar name value) => located span do
    let v ← expression S fault value
    let _ ← introduce name (← typeOf v) v
    return none
  | .node span (.setVar name value) => located span do
    let v ← expression S fault value
    assign name v
    return none
  | .node span (.giveBack value) => located span do
    let v ← expression S fault value
    onDraft (giveBack S (← coerce v .int))
    return none
  | .node span (.ifElse condition thenBody none) => located span do
    let c ← expression S fault condition
    ifElse S c (inScope (items fault thenBody)) (return ())
    return none
  | .node span (.ifElse condition thenBody (some elseBody)) => located span do
    let c ← expression S fault condition
    ifElse S c (inScope (items fault thenBody)) (inScope (items fault elseBody))
    return none
  | .node span (.forLoop index bound body) => located span do
    let limit ← coerce (← expression S fault bound) .int
    forLoop S index limit (inScope (items fault body))
    return none
  | .node span (.fnDef name _ _) => located span (defect (.nestedFunction name))
  | .node span (.program _) => located span (defect .strayList)
  | .node span (.list _) => located span (defect .strayList)
  | .node span shape => located span do
    return some (← expression S fault (.node span shape))
termination_by structural t => t

/-- The statements of a body. -/
def items (fault : FaultConfig) : Tree → Lower Unit
  | .node _ (.program items) => statements fault items
  | .node _ (.list items) => statements fault items
  | _ => return ()
termination_by structural t => t

/-- Statements, one after the other. -/
def statements (fault : FaultConfig) : List Tree → Lower Unit
  | [] => return ()
  | first :: rest => do
    let _ ← statement fault first
    statements fault rest
termination_by structural l => l

end

/-- Statements, one after the other; gives the value of the last of them that is an expression. -/
def statementsValue (fault : FaultConfig) : List Tree → Lower (Option Value)
  | [] => return none
  | first :: rest => do
    let v? ← statement S fault first
    let later? ← statementsValue fault rest
    return later? <|> v?

/-! ## Functions and units -/

/-- The state at the start of a function: its name is defined, its entry is sealed. -/
def openFunction (symbols : SymbolTable) (name : String) (arity : Nat) :
    Except LoweringError State := do
  let (_, symbols) ← symbols.define name (.function arity false)
  let builder := Builder.start name (List.replicate arity .int) .int
  let ((), s) ← (onDraft (S.sealBlock Function.entry))
    ⟨symbols, ⟨builder, Variables.empty⟩, false⟩
  return s

/-- A function definition. -/
def lowerFunction (options : Options) (symbols : SymbolTable) (span : Span) (name : String)
    (parameters : List String) (body : Tree) :
    Except LoweringError (Function × Export × SymbolTable) := do
  let arity := parameters.length
  let start ← locateError span (openFunction S symbols name arity)
  let work : Lower Unit := inScope do
    Lower.parameters span parameters 0
    items S options.fault body
  let ((), s) ← work start
  let (f, symbols) ← locateError span (closeFunction options name arity none s)
  return (f, ⟨name, arity, s.mayFault⟩, symbols)

/-- The top-level statements as a function without parameters. -/
def lowerStatements (options : Options) (symbols : SymbolTable) (name : String)
    (items : List Tree) : Except LoweringError Function := do
  let span := (items.head?.map Tree.span).getD Span.none
  let start ← locateError span (openFunction S symbols name 0)
  let (last?, s) ← (inScope (statementsValue S options.fault items)) start
  let (result?, s) ← match last? with
    | some v => do
      let (v, s) ← (coerce v .int) s
      pure (some v, s)
    | none => pure (none, s)
  let (f, _) ← closeFunction options name 0 result? s
  return f

/-- One top-level item: a function is lowered at once, a statement is kept for later. -/
def lowerItem (options : Options) (progress : Progress) (item : Tree) :
    Except LoweringError Progress :=
  match item with
  | .node span (.fnDef name parameters body) => do
    let (f, entry, symbols) ←
      lowerFunction S options progress.symbols span name parameters body
    return { progress with
      symbols, functions := progress.functions.push f, exports := progress.exports.push entry }
  | statement => return { progress with statements := progress.statements.push statement }

/-- Lowers a unit. The first error stops it. -/
def lowerUnit (options : Options) (exports : List Export) (unitName : String)
    (tree? : Option Tree) : Except LoweringError Emission := do
  let symbols ← importExports exports
  match tree? with
  | none => throw (.ofDefect .noRoot)
  | some tree =>
    let progress ← tree.items.foldlM (lowerItem S options) ⟨symbols, #[], #[], #[]⟩
    if progress.statements.isEmpty then
      return ⟨⟨progress.functions.toList⟩, progress.exports.toList, none⟩
    else
      let f ← lowerStatements S options progress.symbols unitName progress.statements.toList
      return ⟨⟨(progress.functions.push f).toList⟩, progress.exports.toList, some unitName⟩

end Supplied

end Abacus.Lowering
