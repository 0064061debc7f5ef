import Abacus.Lowering.Unit
import Abacus.Proofs.Flow.Building

/-!
# Lowering with checks

The parts of lowering rely on rules for the use of a draft, which nobody checks: what has an end gets
nothing more, what has been sealed gets no further edge. Here is lowering once more, line by line, with a
`demand` in front of each step that has such a rule. It takes what a demand does as a parameter. Without
checks a demand does nothing, so nothing but lowering is left. With checks a demand that is not met stops
lowering with a complaint.

* `Demand`, `Demand.holds` — the rules;
* `Checks`, `demand` — whether they are checked, and how a complaint reads;
* `push`, `terminate`, `sealBlock`, `read` and others — steps with their demands;
* `expression`, `statement`, `lowerUnit` — lowering made of these steps.
-/

namespace Abacus.Lowering.Checked

open Abacus.Flow (Value Block Ty Inst Terminator Builder Function)
open Drafting (build rebuild note newBlock currentBlock setCurrent)
open Lower (onDraft located inScope define defect typeOf variableOf writeHere introduce meet
  markMayFault checkArity isPi)

/-! ## Demands -/

/-- What is demanded of a draft. -/
inductive Demand where
  /-- An instruction is put into a block that has no end. -/
  | instruction
  /-- An end is given to a block that has none, and the edges lead to blocks that are not sealed. -/
  | ending (targets : List Block)
  /-- The block has not been sealed before. -/
  | sealing (block : Block)
  /-- The value that gets an operand is a phi. -/
  | operand (phi : Value)
  /-- The variable that is read has been declared. -/
  | reading (var : SymbolId)
  /-- Where a statement begins and where it has been dealt with, the current block has no end. -/
  | boundary
  /-- Where a function is closed, all its blocks have been sealed and have an end. -/
  | closing
  deriving DecidableEq

/-- Is it as demanded? -/
def Demand.holds (d : Draft) : Demand → Bool
  | instruction | boundary => !d.builder.isTerminated d.builder.current
  | ending targets =>
    !d.builder.isTerminated d.builder.current && targets.all fun target => !d.known.isSealed target
  | sealing block => !d.known.isSealed block
  | operand phi => (d.builder.function.inst phi).isPhi
  | reading var => (d.known.type? var).isSome
  | closing => d.builder.function.blockIds.all fun block =>
    d.known.isSealed block && d.builder.isTerminated block

/-- No checks, or checks with their complaints. -/
abbrev Checks := Option (Demand → LoweringError)

/-- Stops with the complaint if it is not as demanded, where that is checked. -/
def demand (checks : Checks) (what : Demand) : Drafting Unit :=
  match checks with
  | none => return ()
  | some complaint => do
    if what.holds (← get) then return ()
    else throw (complaint what)

variable (checks : Checks)

/-! ## Steps -/

/-- Appends an instruction to the current block. -/
def push (inst : Inst) (ty : Ty) : Drafting Value := do
  demand checks .instruction
  Drafting.emit inst ty

/-- Ends the current block. -/
def terminate (terminator : Terminator) : Drafting Unit := do
  demand checks (.ending terminator.successors)
  Drafting.terminate terminator

/-- Ends the current block with a call. -/
def startCall (callee : String) (arguments : List Value) (normal unwind : Block) : Drafting Value := do
  demand checks (.ending [normal, unwind])
  build fun b => b.invoke callee arguments .int normal unwind

/-- Gives a phi its next operand. -/
def addIncoming (phi : Value) (pred : Block) (v : Value) : Drafting Unit := do
  demand checks (.operand phi)
  rebuild fun b => b.addIncoming phi pred v

/-! ## Reading variables -/

/-- Gives a phi its operand for one predecessor. -/
def fillFrom (p : OpenPhi) (later : List OpenPhi) (pred : Block) : Drafting (List OpenPhi) := do
  demand checks (.reading p.var)
  let (v, made) ← Drafting.resolve p.var pred
  addIncoming checks p.phi pred v
  return made ++ later

/-- Gives phis their operands. -/
def fill : Nat → List OpenPhi → Drafting Unit
  | _, [] => return ()
  | 0, p :: _ => throw (.ofDefect (.endless p.var p.block))
  | rounds + 1, p :: rest => do
    let preds := (← get).builder.preds p.block
    fill rounds (← preds.foldlM (fillFrom checks p) rest)

/-- Gives all of the phis their operands. -/
def fillAll (phis : List OpenPhi) : Drafting Unit := do
  fill checks (phis.length * ((← get).builder.blockCount + 1)) phis

/-- The value of a variable at the end of a block. -/
def read (var : SymbolId) (block : Block) : Drafting Value := do
  demand checks (.reading var)
  let (v, made) ← Drafting.resolve var block
  fillAll checks made
  return v

/-- Seals a block. -/
def sealBlock (block : Block) : Drafting Unit := do
  demand checks (.sealing block)
  let known := (← get).known
  if known.isSealed block then throw (.ofDefect (.sealedTwice block))
  note fun known => { known with incomplete := known.incomplete.filter (·.block ≠ block) }
  fillAll checks (known.incompleteOf block).reverse
  note fun known => { known with sealedBlocks := known.sealedBlocks.insert block }

/-! ## Faults -/

/-- The quotient of two integers, after a check of the divisor. -/
def checkedDiv (config : FaultConfig) (lhs rhs : Value) : Drafting (Value × DivisionSites) := do
  let check ← currentBlock
  let zeroBlock ← newBlock "div.zero"
  let okay ← newBlock "div.ok"
  let zero ← push checks (.intConst 0) .int
  let isZero ← push checks (.intCompare .equal rhs zero) .bool
  terminate checks (.branch isZero zeroBlock okay)
  sealBlock checks zeroBlock
  sealBlock checks okay
  setCurrent zeroBlock
  let fault ← push checks (.faultAlloc config.code config.typeId) .fault
  terminate checks (.raise fault)
  setCurrent okay
  let quotient ← push checks (.intArith .div lhs rhs) .int
  return (quotient, ⟨check, zeroBlock, okay⟩)

/-- The landing block of a call. -/
def fillLanding (config : FaultConfig) (sites : InvokeSites) : Drafting (Value × Value) := do
  setCurrent sites.landing
  let pad ← push checks .landingPad .fault
  let selector ← push checks (.faultSelector pad) .int
  let typeId ← push checks (.faultTypeId config.typeId) .int
  let isOurs ← push checks (.intCompare .equal selector typeId) .bool
  terminate checks (.branch isOurs sites.caught sites.faulted)
  sealBlock checks sites.caught
  sealBlock checks sites.faulted
  return (pad, selector)

/-- The handler of a call. -/
def fillCaught (sites : InvokeSites) (pad : Value) : Drafting Unit := do
  setCurrent sites.caught
  let code ← push checks (.beginCatch pad) .int
  let _ ← push checks (.reportFault code) .unit
  let _ ← push checks .endCatch .unit
  let zero ← push checks (.intConst 0) .int
  terminate checks (.ret zero)

/-- What happens to faults of other types. -/
def fillFaulted (sites : InvokeSites) (pad selector : Value) : Drafting Unit := do
  setCurrent sites.faulted
  let zero ← push checks (.intConst 0) .int
  let isForeign ← push checks (.intCompare .less selector zero) .bool
  terminate checks (.branch isForeign sites.unexpected sites.cleanup)
  sealBlock checks sites.unexpected
  sealBlock checks sites.cleanup
  setCurrent sites.unexpected
  let _ ← push checks (.callUnexpected pad) .unit
  terminate checks .unreachable
  setCurrent sites.cleanup
  terminate checks (.resume pad)

/-- A call that may fault, with its handler. -/
def invoke (config : FaultConfig) (callee : String) (arguments : List Value) :
    Drafting (Value × InvokeSites) := do
  let sites ← Drafting.newInvokeSites
  let result ← startCall checks callee arguments sites.normal sites.landing
  sealBlock checks sites.normal
  sealBlock checks sites.landing
  let (pad, selector) ← fillLanding checks config sites
  fillCaught checks sites pad
  fillFaulted checks sites pad selector
  setCurrent sites.normal
  return (result, sites)

/-! ## Expressions -/

/-- Appends an instruction to the current block. -/
def emit (inst : Inst) (ty : Ty) : Lower Value := onDraft (push checks inst ty)

/-- Reads a variable in the current block. -/
def readHere (var : SymbolId) : Lower Value := onDraft do
  read checks var (← currentBlock)

/-- The value as one of the given type. -/
def coerce (v : Value) (target : Ty) : Lower Value := do
  let source ← typeOf v
  if source = target then return v
  else match source, target with
    | .int, .float => emit checks (.intToFloat v) .float
    | .float, .int => emit checks (.floatToInt v) .int
    | _, _ => defect (.inconvertible source target)

/-- Is the value different from 0? -/
def truthy (v : Value) : Lower Value := do
  match ← typeOf v with
  | .int => emit checks (.intCompare .notEqual v (← emit checks (.intConst 0) .int)) .bool
  | .float => emit checks (.floatCompare .notEqual v (← emit checks (.floatConst 0.0) .float)) .bool
  | other => defect (.unbranchable other)

/-- An operator between two values. -/
def infixOp (fault : FaultConfig) (op : InfixOp) (lhs rhs : Value) : Lower Value := do
  let ty := meet (← typeOf lhs) (← typeOf rhs)
  let lhs ← coerce checks lhs ty
  let rhs ← coerce checks rhs ty
  match operation op, ty with
  | .inr cmp, .float =>
    emit checks (.boolToInt (← emit checks (.floatCompare cmp lhs rhs) .bool)) .int
  | .inr cmp, _ => emit checks (.boolToInt (← emit checks (.intCompare cmp lhs rhs) .bool)) .int
  | .inl arith, .float => emit checks (.floatArith arith lhs rhs) .float
  | .inl .div, _ => do
    let (quotient, _) ← onDraft (checkedDiv checks fault lhs rhs)
    markMayFault
    return quotient
  | .inl arith, _ => emit checks (.intArith arith lhs rhs) .int

/-- The negative of a value. -/
def negate (v : Value) : Lower Value := do
  match ← typeOf v with
  | .float => emit checks (.floatArith .sub (← emit checks (.floatConst 0.0) .float) v) .float
  | _ => emit checks (.intArith .sub (← emit checks (.intConst 0) .int) v) .int

/-- The call of a function with the given values. -/
def callWith (fault : FaultConfig) (name : String) (count : Nat) (values : Lower (List Value)) :
    Lower Value := do
  if ← isPi name then
    checkArity name 0 count
    emit checks (.floatConst piValue) .float
  else
    let (_, arity, mayFault) ← fun s => match s.symbols.findFunction name with
      | .ok found => .ok (found, s)
      | .error e => .error e
    checkArity name arity count
    let arguments ← values
    if mayFault then
      let (result, _) ← onDraft (invoke checks fault name arguments)
      return result
    else emit checks (.call name arguments) .int

mutual

/-- The value of an expression. -/
def expression (fault : FaultConfig) : Tree → Lower Value
  | .node span (.integer n) => located span (emit checks (.intConst n) .int)
  | .node span (.floating x) => located span (emit checks (.floatConst x) .float)
  | .node span (.ident name) => located span do readHere checks (← variableOf name)
  | .node span (.infixOp op left right) => located span do
    let lhs ← expression fault left
    let rhs ← expression fault right
    infixOp checks fault op lhs rhs
  | .node span (.negate operand) => located span do negate checks (← expression fault operand)
  | .node span (.call name arguments) => located span
    (callWith checks fault name arguments.items.length (argumentItems fault arguments))
  | .node span shape => located span (defect (.notExpression (nodeText shape)))
termination_by structural t => t

/-- The values of the items of an argument list, as integers. -/
def argumentItems (fault : FaultConfig) : Tree → Lower (List Value)
  | .node _ (.program items) => arguments fault items
  | .node _ (.list items) => arguments fault items
  | _ => return []
termination_by structural t => t

/-- The values of arguments, as integers. -/
def arguments (fault : FaultConfig) : List Tree → Lower (List Value)
  | [] => return []
  | first :: rest => do
    let v ← coerce checks (← expression fault first) .int
    return v :: (← arguments fault rest)
termination_by structural l => l

end

/-! ## Statements -/

/-- Ends the current block by a jump. -/
def jumpTo (block : Block) : Lower Unit := onDraft (terminate checks (.jump block))

/-- Gives a value back, and goes on in a block of its own. -/
def giveBack (v : Value) : Lower Unit := onDraft do
  terminate checks (.ret v)
  let dead ← newBlock "after_return"
  setCurrent dead
  sealBlock checks dead

/-- Runs one of two bodies, and goes on in a block in which both meet. -/
def ifElse (condition : Value) (thenBody elseBody : Lower Unit) : Lower Unit := do
  let test ← truthy checks condition
  let (elseBlock, join) ← onDraft do
    let thenBlock ← newBlock "if.then"
    let elseBlock ← newBlock "if.else"
    let join ← newBlock "if.join"
    terminate checks (.branch test thenBlock elseBlock)
    sealBlock checks thenBlock
    sealBlock checks elseBlock
    setCurrent thenBlock
    return (elseBlock, join)
  thenBody
  jumpTo checks join
  onDraft (setCurrent elseBlock)
  elseBody
  jumpTo checks join
  onDraft do
    sealBlock checks join
    setCurrent join

/-- Counts a variable from 0 while it is less than the bound. -/
def forLoop (index : String) (bound : Value) (body : Lower Unit) : Lower Unit := inScope do
  let var ← define index .var
  onDraft (Drafting.declare var .int)
  writeHere var (← emit checks (.intConst 0) .int)
  let (header, bodyEnd, exit) ← onDraft do
    let header ← newBlock "for.header"
    let bodyBlock ← newBlock "for.body"
    let bodyEnd ← newBlock "for.body_end"
    let exit ← newBlock "for.end"
    terminate checks (.jump header)
    setCurrent header
    let current ← read checks var header
    let inRange ← push checks (.intCompare .less current bound) .bool
    terminate checks (.branch inRange bodyBlock exit)
    sealBlock checks bodyBlock
    setCurrent bodyBlock
    return (header, bodyEnd, exit)
  body
  jumpTo checks bodyEnd
  onDraft do
    sealBlock checks bodyEnd
    setCurrent bodyEnd
    let current ← read checks var bodyEnd
    let one ← push checks (.intConst 1) .int
    let next ← push checks (.intArith .add current one) .int
    terminate checks (.jump header)
    Drafting.write var bodyEnd next
    sealBlock checks header
    sealBlock checks exit
    setCurrent exit

/-- A new value for a variable, converted to the type of the variable. -/
def assign (name : String) (v : Value) : Lower Unit := do
  let var ← variableOf name
  match (← get).draft.known.type? var with
  | none => defect (.untyped name)
  | some ty => writeHere var (← coerce checks v ty)

mutual

/-- One statement; an expression gives its value. -/
def statement (fault : FaultConfig) : Tree → Lower (Option Value)
  | .node span (.letVar name value) => located span do
    let v ← expression checks fault value
    let _ ← introduce name (← typeOf v) v
    return none
  | .node span (.setVar name value) => located span do
    let v ← expression checks fault value
    assign checks name v
    return none
  | .node span (.giveBack value) => located span do
    let v ← expression checks fault value
    giveBack checks (← coerce checks v .int)
    return none
  | .node span (.ifElse condition thenBody none) => located span do
    let c ← expression checks fault condition
    ifElse checks c (inScope (items fault thenBody)) (return ())
    return none
  | .node span (.ifElse condition thenBody (some elseBody)) => located span do
    let c ← expression checks fault condition
    ifElse checks c (inScope (items fault thenBody)) (inScope (items fault elseBody))
    return none
  | .node span (.forLoop index bound body) => located span do
    let limit ← coerce checks (← expression checks fault bound) .int
    forLoop checks index limit (inScope (items fault body))
    return none
  | .node span (.fnDef name _ _) => located span (defect (.nestedFunction name))
  | .node span (.program _) => located span (defect .strayList)
  | .node span (.list _) => located span (defect .strayList)
  | .node span shape => located span do
    return some (← expression checks fault (.node span shape))
termination_by structural t => t

/-- The statements of a body. -/
def items (fault : FaultConfig) : Tree → Lower Unit
  | .node _ (.program items) => statements fault items
  | .node _ (.list items) => statements fault items
  | _ => return ()
termination_by structural t => t

/-- Statements, one after the other. -/
def statements (fault : FaultConfig) : List Tree → Lower Unit
  | [] => onDraft (demand checks .boundary)
  | first :: rest => do
    onDraft (demand checks .boundary)
    let _ ← statement fault first
    statements fault rest
termination_by structural l => l

end

/-- Statements, one after the other; gives the value of the last of them that is an expression. -/
def statementsValue (fault : FaultConfig) : List Tree → Lower (Option Value)
  | [] => do
    onDraft (demand checks .boundary)
    return none
  | first :: rest => do
    onDraft (demand checks .boundary)
    let v? ← statement checks fault first
    let later? ← statementsValue fault rest
    return later? <|> v?

/-! ## Functions and units -/

/-- The state at the start of a function: its name is defined, its entry is sealed. -/
def openFunction (symbols : SymbolTable) (name : String) (arity : Nat) :
    Except LoweringError State := do
  let (_, symbols) ← symbols.define name (.function arity false)
  let builder := Builder.start name (List.replicate arity .int) .int
  let ((), s) ← (onDraft (sealBlock checks Function.entry))
    ⟨symbols, ⟨builder, Variables.empty⟩, false⟩
  return s

/-- Ends a body: control that reaches its end gives back `result?`, or 0. -/
def endBody (result? : Option Value) : Drafting Unit := do
  let draft ← get
  if draft.builder.isTerminated draft.builder.current then return ()
  else
    let v ← match result? with
      | some v => pure v
      | none => push checks (.intConst 0) .int
    terminate checks (.ret v)

/-- Ends a function: its graph, and the names in scope with its fault flag. -/
def closeFunction (options : Options) (name : String) (arity : Nat) (result? : Option Value)
    (s : State) : Except LoweringError (Function × SymbolTable) := do
  let ((), s) ← (onDraft do
    endBody checks result?
    demand checks .closing) s
  let f ← finishDraft options.verify s.draft
  if s.mayFault then
    let (_, symbols) ← s.symbols.redefine name (.function arity true)
    return (f, symbols)
  else return (f, s.symbols)

/-- A function definition: the function, how later units see it, and the names in scope after
it. -/
def lowerFunction (options : Options) (symbols : SymbolTable) (span : Span) (name : String)
    (parameters : List String) (body : Tree) :
    Except LoweringError (Function × Export × SymbolTable) := do
  let arity := parameters.length
  let start ← locateError span (openFunction checks symbols name arity)
  let work : Lower Unit := inScope do
    Lower.parameters span parameters 0
    items checks options.fault body
  let ((), s) ← work start
  let (f, symbols) ← locateError span (closeFunction checks options name arity none s)
  return (f, ⟨name, arity, s.mayFault⟩, symbols)

/-- The top-level statements as a function without parameters. -/
def lowerStatements (options : Options) (symbols : SymbolTable) (name : String)
    (items : List Tree) : Except LoweringError Function := do
  let span := (items.head?.map Tree.span).getD Span.none
  let start ← locateError span (openFunction checks symbols name 0)
  let (last?, s) ← (inScope (statementsValue checks options.fault items)) start
  let (result?, s) ← match last? with
    | some v => do
      let (v, s) ← (coerce checks v .int) s
      pure (some v, s)
    | none => pure (none, s)
  let (f, _) ← closeFunction checks options name 0 result? s
  return f

/-- One top-level item: a function is lowered at once, a statement is kept for later. -/
def lowerItem (options : Options) (progress : Progress) (item : Tree) :
    Except LoweringError Progress :=
  match item with
  | .node span (.fnDef name parameters body) => do
    let (f, entry, symbols) ←
      lowerFunction checks options progress.symbols span name parameters body
    return { progress with
      symbols, functions := progress.functions.push f, exports := progress.exports.push entry }
  | statement => return { progress with statements := progress.statements.push statement }

/-- Lowers a unit. The first error stops it. -/
def lowerUnit (options : Options) (exports : List Export) (unitName : String)
    (tree? : Option Tree) : Except LoweringError Emission := do
  let symbols ← importExports exports
  match tree? with
  | none => throw (.ofDefect .noRoot)
  | some tree =>
    let progress ← tree.items.foldlM (lowerItem checks options) ⟨symbols, #[], #[], #[]⟩
    if progress.statements.isEmpty then
      return ⟨⟨progress.functions.toList⟩, progress.exports.toList, none⟩
    else
      let f ← lowerStatements checks options progress.symbols unitName progress.statements.toList
      return ⟨⟨(progress.functions.push f).toList⟩, progress.exports.toList, some unitName⟩

end Abacus.Lowering.Checked
