import Abacus.Lowering.Expression

/-!
# Lowering statements

A statement extends the graph from the current block. An expression used as a statement gives its
value; other statements give none. The bodies of a condition and of a loop have scopes of their
own, and the index of a loop has one around its body.

After a `return` the following statements go into a block that nothing leads to.
-/

namespace Abacus.Lowering

open Abacus.Flow (Value Block)

namespace Lower

/-- Ends the current block by a jump. -/
def jumpTo (block : Block) : Lower Unit := onDraft (Drafting.terminate (.jump block))

/-- Gives a value back, and goes on in a block of its own. -/
def giveBack (v : Value) : Lower Unit := onDraft do
  Drafting.terminate (.ret v)
  let dead ← Drafting.newBlock "after_return"
  Drafting.setCurrent dead
  Drafting.sealBlock dead

/-- Runs one of two bodies, and goes on in a block in which both meet. -/
def ifElse (condition : Value) (thenBody elseBody : Lower Unit) : Lower Unit := do
  let test ← truthy condition
  let (elseBlock, join) ← onDraft do
    let thenBlock ← Drafting.newBlock "if.then"
    let elseBlock ← Drafting.newBlock "if.else"
    let join ← Drafting.newBlock "if.join"
    Drafting.terminate (.branch test thenBlock elseBlock)
    Drafting.sealBlock thenBlock
    Drafting.sealBlock elseBlock
    Drafting.setCurrent thenBlock
    return (elseBlock, join)
  thenBody
  jumpTo join
  onDraft (Drafting.setCurrent elseBlock)
  elseBody
  jumpTo join
  onDraft do
    Drafting.sealBlock join
    Drafting.setCurrent join

/-- Counts a variable from 0 while it is less than the bound. The header is sealed when the edge
back to it is there. -/
def forLoop (index : String) (bound : Value) (body : Lower Unit) : Lower Unit := inScope do
  let var ← define index .var
  onDraft (Drafting.declare var .int)
  writeHere var (← emit (.intConst 0) .int)
  let (header, bodyEnd, exit) ← onDraft do
    let header ← Drafting.newBlock "for.header"
    let bodyBlock ← Drafting.newBlock "for.body"
    let bodyEnd ← Drafting.newBlock "for.body_end"
    let exit ← Drafting.newBlock "for.end"
    Drafting.terminate (.jump header)
    Drafting.setCurrent header
    let current ← Drafting.read var header
    let inRange ← Drafting.emit (.intCompare .less current bound) .bool
    Drafting.terminate (.branch inRange bodyBlock exit)
    Drafting.sealBlock bodyBlock
    Drafting.setCurrent bodyBlock
    return (header, bodyEnd, exit)
  body
  jumpTo bodyEnd
  onDraft do
    Drafting.sealBlock bodyEnd
    Drafting.setCurrent bodyEnd
    let current ← Drafting.read var bodyEnd
    let one ← Drafting.emit (.intConst 1) .int
    let next ← Drafting.emit (.intArith .add current one) .int
    Drafting.terminate (.jump header)
    Drafting.write var bodyEnd next
    Drafting.sealBlock header
    Drafting.sealBlock exit
    Drafting.setCurrent exit

/-- A new value for a variable, converted to the type of the variable. -/
def assign (name : String) (v : Value) : Lower Unit := do
  let var ← variableOf name
  match (← get).draft.known.type? var with
  | none => defect (.untyped name)
  | some ty => writeHere var (← coerce v ty)

mutual

/-- One statement; an expression gives its value. -/
def statement (fault : FaultConfig) : Tree → Lower (Option Value)
  | .node span (.letVar name value) => located span do
    let v ← expression fault value
    let _ ← introduce name (← typeOf v) v
    return none
  | .node span (.setVar name value) => located span do
    let v ← expression fault value
    assign name v
    return none
  | .node span (.giveBack value) => located span do
    let v ← expression fault value
    giveBack (← coerce v .int)
    return none
  | .node span (.ifElse condition thenBody none) => located span do
    let c ← expression fault condition
    ifElse c (inScope (items fault thenBody)) (return ())
    return none
  | .node span (.ifElse condition thenBody (some elseBody)) => located span do
    let c ← expression fault condition
    ifElse c (inScope (items fault thenBody)) (inScope (items fault elseBody))
    return none
  | .node span (.forLoop index bound body) => located span do
    let limit ← coerce (← expression fault bound) .int
    forLoop index limit (inScope (items fault body))
    return none
  | .node span (.fnDef name _ _) => located span (defect (.nestedFunction name))
  | .node span (.program _) => located span (defect .strayList)
  | .node span (.list _) => located span (defect .strayList)
  | .node span shape => located span do
    return some (← expression fault (.node span shape))
termination_by structural t => t

/-- The statements of a body. -/
def items (fault : FaultConfig) : Tree → Lower Unit
  | .node _ (.program items) => statements fault items
  | .node _ (.list items) => statements fault items
  | _ => return ()
termination_by structural t => t

/-- Statements, one after the other. -/
def statements (fault : FaultConfig) : List Tree → Lower Unit
  | [] => return ()
  | first :: rest => do
    let _ ← statement fault first
    statements fault rest
termination_by structural l => l

end

/-- Statements, one after the other; gives the value of the last of them that is an expression. -/
def statementsValue (fault : FaultConfig) : List Tree → Lower (Option Value)
  | [] => return none
  | first :: rest => do
    let v? ← statement fault first
    let later? ← statementsValue fault rest
    return later? <|> v?

end Lower

end Abacus.Lowering
