import Mathlib.Data.PFun
import Abacus.Tree.Statement

/-!
# Parsing without guards

In `Parser` every loop goes through `iterate`, which stops after a round that has read nothing, and the
room for nesting is an argument that goes down. Here are the same parsers without either: a loop goes
round as long as it asks to, and the depth of nesting is counted up and down and compared with its
maximum. A `Meter` counts how often loops go round.

What goes on for ever gives nothing (`Part.none`). A loop is a fixed point of its rounds (`PFun.fix`).
Expressions and bodies call themselves through a number of levels, which says only how long they may do
so, not what they do: where no level is left they give nothing either.

* `Meter` — a token stream, the depth, and the rounds so far;
* `Unguarded.loop` — a loop that goes round as long as it asks to;
* `Unguarded.expression`, `Unguarded.body` — what nests;
* `Unguarded.program` — a whole text.
-/

namespace Abacus

/-- A token stream, how many expressions and bodies are open, how often loops have gone round again, and
how often they have done so after a round that read no token. -/
structure Meter where
  stream : TokenStream
  depth : Nat
  rounds : Nat
  idle : Nat

namespace Meter

/-- Nothing is open before the first token, and no loop has gone round. -/
def start (tokens : List Token) : Meter := ⟨.ofTokens tokens, 0, 0, 0⟩

/-- One more round, after a round that has started with so many tokens left. -/
def again (left : Nat) (m : Meter) : Meter := { m with
  rounds := m.rounds + 1
  idle := if m.stream.rest.length < left then m.idle else m.idle + 1 }

/-- One level deeper. -/
def deeper (m : Meter) : Meter := { m with depth := m.depth + 1 }

/-- One level less deep. -/
def shallower (m : Meter) : Meter := { m with depth := m.depth - 1 }

end Meter

/-- Parsers that may go on for ever. -/
abbrev Unguarded (α : Type) := StateT Meter Part α

namespace Unguarded

open Abacus.Parser hiding commaSeparated parenthesised skipNewlines skipLine endStatement callOf primary
  operand infixStep expression fnDef ifElse forLoop letVar giveBack setVar statement block body program

variable {α β : Type}

/-- A parser that does not go round and does not nest. -/
def lift (p : Parser α) : Unguarded α := fun m =>
  .some ((p m.stream).1, { m with stream := (p m.stream).2 })

instance : MonadLift Parser Unguarded := ⟨lift⟩

/-! ## Going round and nesting -/

/-- A round of a loop: the loop ends, or goes round again. -/
def round (step : β → Unguarded (β × Bool)) : β × Meter →. (β × Meter) ⊕ (β × Meter) := fun (acc, m) =>
  (step acc m).map fun ((acc, more), m') =>
    if more then .inr (acc, m'.again m.stream.rest.length) else .inl (acc, m')

/-- Runs `step` on the accumulated value until it asks to stop. -/
def loop (step : β → Unguarded (β × Bool)) (acc : β) : Unguarded β := fun m =>
  (round step).fix (acc, m)

/-- Opens an expression or a body; says whether it may be that deep. -/
def enter : Unguarded Bool := do
  modify Meter.deeper
  if maxNesting < (← get).depth then
    complainTooDeep
    return false
  else return true

/-- Closes it, whether it was too deep or not. -/
def leave : Unguarded Unit := modify Meter.shallower

/-- No level is left. -/
def endless : Unguarded α := fun _ => .none

/-! ## Lines and lists -/

/-- Steps over line ends. -/
def skipNewlines : Unguarded Unit := loop (fun _ => return ((), ← eat .newline)) ()

/-- Steps over everything up to the end of the line, of the block or of the text. -/
def skipLine : Unguarded Unit :=
  loop (fun _ => do
    match ← peek with
    | .newline | .eof | .dedent => return ((), false)
    | _ =>
      advance
      return ((), true)) ()

/-- Ends a statement. What is left over on its line is complained about and stepped over. -/
def endStatement : Unguarded Unit := do
  if ← eat .newline then return ()
  let found ← peek
  if found = .eof || found = .dedent || (← afterDedent) then return ()
  complain ("expected end of line, found " ++ found.description)
  skipLine
  let _ ← eat .newline

/-- Elements separated by commas, at least one. -/
def commaSeparated (element : Unguarded α) : Unguarded (List α) := do
  let elements ← loop (fun (sofar : Array α) => do
    let next ← element
    return (sofar.push next, ← eat .comma)) #[]
  return elements.toList

/-- A list in parentheses: nothing, or elements separated by commas. -/
def parenthesised (element : Unguarded α) : Unguarded (Span × List α) := do
  let start ← expect .leftParen
  let elements ← if (← peek) = .rightParen then pure [] else commaSeparated element
  let _ ← expect .rightParen
  return (start, elements)

/-! ## Expressions -/

/-- The arguments of the call of `name`, which starts at `start`. -/
def callOf (inner : Unguarded Tree) (name : String) (start : Span) : Unguarded Tree := do
  let (opening, elements) ← parenthesised inner
  let listSpan ← spanFrom opening
  let callSpan ← spanFrom start
  return .node callSpan (.call name (.node listSpan (.list elements)))

/-- A literal, a variable, a call, or an expression in parentheses. What cannot start an expression is
stepped over, unless it is layout. -/
def primary (inner : Unguarded Tree) : Unguarded Tree := do
  let start ← currentSpan
  match ← peek with
  | .integer value =>
    advance
    return .node start (.integer value)
  | .floating value =>
    advance
    return .node start (.floating value)
  | .ident name =>
    advance
    if (← peek) = .leftParen then callOf inner name start
    else return .node start (.ident name)
  | .leftParen =>
    advance
    let tree ← inner
    let _ ← expect .rightParen
    return tree
  | found =>
    complain ("expected expression, found " ++ found.description)
    match found with
    | .newline | .eof | .dedent | .indent => pure ()
    | _ => advance
    return missing start

/-- A primary, or a minus and its operand. -/
def operand (expression : Nat → Unguarded Tree) : Unguarded Tree := do
  if (← peek) = .minus then
    let start ← currentSpan
    advance
    let tree ← expression negatePower
    return .node (start.merge tree.span) (.negate tree)
  else primary (expression 0)

/-- One round of an operator chain: an operator of at least the power `least` and its right operand.
The flag says that the operator before was a comparison. -/
def infixStep (expression : Nat → Unguarded Tree) (least : Nat) :
    Tree × Bool → Unguarded ((Tree × Bool) × Bool) := fun (left, compared) => do
  match infixOf? (← peek) with
  | none => return ((left, compared), false)
  | some op =>
    let (leftPower, rightPower) := op.power
    if leftPower < least then return ((left, compared), false)
    else
      if op.isComparison && compared then
        complainWithHelp "comparison operators cannot be chained"
          "parenthesize the first comparison"
      advance
      let right ← expression rightPower
      let tree := Tree.node (left.span.merge right.span) (.infixOp op left right)
      return ((tree, op.isComparison), true)

/-- An operand and the operators of at least the given power behind it. -/
def chain (expression : Nat → Unguarded Tree) (least : Nat) : Unguarded Tree := do
  let first ← operand expression
  let (tree, _) ← loop (infixStep expression least) (first, false)
  return tree

/-- An expression of operators of at least the given power. -/
def expression : Nat → Nat → Unguarded Tree
  | 0, _ => endless
  | levels + 1, least => do
    if ← enter then
      let tree ← chain (expression levels) least
      leave
      return tree
    else
      leave
      return missing (← currentSpan)

/-! ## Statements -/

/-- A function: its name, its parameters and its body. -/
def fnDef (body : Unguarded Tree) : Unguarded Tree := do
  let start ← expect .fnWord
  let name ← expectIdent
  let (_, parameters) ← parenthesised expectIdent
  let inner ← body
  return .node (← spanFrom start) (.fnDef name parameters inner)

/-- A condition, the body for when it holds, and possibly one for when it does not. -/
def ifElse (expr body : Unguarded Tree) : Unguarded Tree := do
  let start ← expect .ifWord
  let condition ← expr
  let thenBody ← body
  let elseBody ←
    if ← findElse then
      let _ ← expect .elseWord
      some <$> body
    else pure none
  return .node (← spanFrom start) (.ifElse condition thenBody elseBody)

/-- A counting loop. -/
def forLoop (expr body : Unguarded Tree) : Unguarded Tree := do
  let start ← expect .forWord
  let index ← expectIdent
  let _ ← expect .less
  let bound ← expr
  let inner ← body
  return .node (← spanFrom start) (.forLoop index bound inner)

/-- A new variable and its value. -/
def letVar (expr : Unguarded Tree) : Unguarded Tree := do
  let start ← currentSpan
  advance
  let name ← expectIdent
  let _ ← expect .equals
  let value ← expr
  return .node (← spanFrom start) (.letVar name value)

/-- The value that a function gives back. -/
def giveBack (expr : Unguarded Tree) : Unguarded Tree := do
  let start ← currentSpan
  advance
  let value ← expr
  return .node (← spanFrom start) (.giveBack value)

/-- A new value for the variable `name`; the name and the `=` are still to be read. -/
def setVar (expr : Unguarded Tree) (name : String) : Unguarded Tree := do
  let start ← currentSpan
  advance
  advance
  let value ← expr
  return .node (← spanFrom start) (.setVar name value)

/-- One statement. -/
def statement (expr body : Unguarded Tree) : Unguarded Tree := do
  match ← peek with
  | .letWord => letVar expr
  | .returnWord => giveBack expr
  | .ifWord => ifElse expr body
  | .forWord => forLoop expr body
  | .fnWord =>
    complainWithHelp "functions may only be defined at the top level"
      "move this definition out of the enclosing body"
    fnDef body
  | .ident name =>
    if (← peekSecond) = .equals then setVar expr name else expr
  | _ => expr

/-! ## Bodies -/

/-- One statement of a block and its end, or the end of the block. -/
def blockStep (item : Unguarded Tree) (sofar : Array Tree) : Unguarded (Array Tree × Bool) := do
  skipNewlines
  if ← eat .dedent then return (sofar, false)
  else if (← peek) = .eof then return (sofar, false)
  else
    let next ← item
    endStatement
    return (sofar.push next, true)

/-- The statements of a block, up to the end of the block, which is stepped over. -/
def block (item : Unguarded Tree) : Unguarded (List Tree) := do
  let items ← loop (blockStep item) #[]
  return items.toList

/-- The statements of a body: an indented block or one statement. -/
def items (item : Unguarded Tree) : Unguarded (List Tree) := do
  if ← eat .newline then
    let _ ← expect .indent
    block item
  else
    return [← item]

/-- A body, after an optional colon. -/
def body : Nat → Unguarded Tree
  | 0 => endless
  | levels + 1 => do
    let start ← currentSpan
    let _ ← eat .colon
    if ← enter then
      let items ← items (statement (expression levels 0) (body levels))
      leave
      return .node (← spanFrom start) (.list items)
    else
      leave
      return .node start (.list [])

/-! ## Programs -/

/-- One round at the top level: an item and its end, or indentation that belongs to nothing. -/
def topLevelStep (levels : Nat) (sofar : Array Tree) : Unguarded (Array Tree × Bool) := do
  skipNewlines
  match ← peek with
  | .eof => return (sofar, false)
  | .indent | .dedent =>
    complain "unexpected indentation"
    advance
    return (sofar, true)
  | .fnWord =>
    let item ← fnDef (body levels)
    endStatement
    return (sofar.push item, true)
  | _ =>
    let item ← statement (expression levels 0) (body levels)
    endStatement
    return (sofar.push item, true)

/-- A whole text: functions and statements in any order. -/
def program (levels : Nat) : Unguarded Tree := do
  let start ← currentSpan
  let items ← loop (topLevelStep levels) #[]
  return .node (← spanFrom start) (.program items.toList)

end Unguarded

end Abacus
