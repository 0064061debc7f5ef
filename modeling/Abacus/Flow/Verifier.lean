import Abacus.Flow.Graph
import Abacus.Flow.Text

/-!
# The verifier

A function is well formed when each block ends, all edges lead to blocks, the recorded predecessors
are the edges, the operands of the phis follow the predecessors, and on every way from the entry a
value is defined before it is used. `Function.violation?` gives the first thing that is wrong.
-/

namespace Abacus.Flow

/-- What can be wrong with a function. -/
inductive Violation where
  | unterminated (function : String) (block : Block)
  | missingTarget (function : String) (block target : Block)
  | predecessorMismatch (function : String) (block : Block) (recorded actual : List Block)
  | phiArity (function : String) (block : Block) (phi : Value) (operands preds : Nat)
  | phiOrder (function : String) (block : Block) (phi : Value)
  | notDominated (function : String) (block : Block) (value : Value)
  deriving DecidableEq, Repr

namespace Violation

/-- A block and its function. -/
def place (function : String) (block : Block) : String := block.text ++ " of @" ++ function

/-- The message of a violation. -/
def message : Violation → String
  | unterminated function block => "block " ++ place function block ++ " has no terminator"
  | missingTarget function block target =>
    "block " ++ place function block ++ " branches to missing block " ++ target.text
  | predecessorMismatch function block recorded actual =>
    "block " ++ place function block ++ " records predecessors " ++ blocks recorded ++
      ", terminators give " ++ blocks actual
  | phiArity function block phi operands preds =>
    "phi " ++ phi.text ++ " in " ++ place function block ++ " has " ++ toString operands ++
      " operands for " ++ toString preds ++ " predecessors"
  | phiOrder function block phi =>
    "phi " ++ phi.text ++ " in " ++ place function block ++
      " lists operands out of predecessor order"
  | notDominated function block value =>
    "use of " ++ value.text ++ " in " ++ place function block ++
      " is not dominated by its definition"
where
  /-- A list of blocks in long form. -/
  blocks (bs : List Block) : String := longList (bs.map Block.longText)

end Violation

namespace Function

/-- The block does not end, or goes on in a block that does not exist. -/
def endViolation? (f : Function) (b : Block) : Option Violation :=
  match (f.block b).terminator? with
  | none => some (.unterminated f.name b)
  | some terminator =>
    (terminator.successors.find? fun target => f.blocks.size ≤ target.index).map
      (.missingTarget f.name b)

/-- For each block, the blocks from which edges lead to it: in block order, one entry per edge. -/
def incomingEdges (f : Function) : Array (List Block) :=
  f.blockIds.foldl
    (fun edges b =>
      (f.successors b).foldl (fun edges s => edges.modify s.index (· ++ [b])) edges)
    (Array.replicate f.blocks.size [])

/-- The recorded predecessors of the block are not the edges into it. -/
def predsViolation? (f : Function) (edges : Array (List Block)) (b : Block) : Option Violation :=
  let recorded := f.preds b
  let actual := edges.getD b.index []
  if recorded.isPerm actual then none
  else some (.predecessorMismatch f.name b recorded actual)

/-- The operands of the phi do not follow the predecessors. A value that is no phi passes. -/
def phiViolation? (f : Function) (b : Block) (phi : Value) : Option Violation :=
  match f.inst phi with
  | .phi incoming =>
    let preds := f.preds b
    if incoming.length ≠ preds.length then
      some (.phiArity f.name b phi incoming.length preds.length)
    else if incoming.map Prod.fst ≠ preds then some (.phiOrder f.name b phi)
    else none
  | _ => none

/-- The values that the end of a block reads; an `invoke` reads the operands of its call. -/
def terminatorUses (f : Function) (b : Block) : List Value :=
  match (f.block b).terminator? with
  | some (.branch condition _ _) => [condition]
  | some (.ret v) | some (.raise v) | some (.resume v) => [v]
  | some (.invoke call _ _) => (f.inst call).operands
  | some (.jump _) | some .unreachable | none => []

/-- May `v` be used in `b` after the values `defined` have been defined there? A value of another
block has to dominate this one. -/
def isDefinedAt (f : Function) (d : Dominance) (b : Block) (defined : List Value) (v : Value) :
    Bool :=
  if (f.value v).block = b then defined.contains v else d.dominates (f.value v).block b

/-- The first value that is used too early in the rest of a block. -/
def earlyUse? (f : Function) (d : Dominance) (b : Block) :
    List Value → List Value → Option Value
  | [], defined => (f.terminatorUses b).find? fun v => !f.isDefinedAt d b defined v
  | v :: rest, defined =>
    match (f.inst v).operands.find? fun u => !f.isDefinedAt d b defined u with
    | some u => some u
    | none => earlyUse? f d b rest (v :: defined)

/-- The first operand of the phi that is not defined at the end of the predecessor from which it
comes. Predecessors that cannot be reached do not count. -/
def earlyPhiUse? (f : Function) (d : Dominance) (phi : Value) : Option Value :=
  match f.inst phi with
  | .phi incoming =>
    (incoming.find? fun (pred, v) =>
      d.isReachable pred && !d.dominates (f.value v).block pred).map Prod.snd
  | _ => none

/-- A value is used before it is defined on some way to the block. -/
def useViolation? (f : Function) (d : Dominance) (b : Block) : Option Violation :=
  if d.isReachable b then
    let info := f.block b
    match info.phis.findSome? (f.earlyPhiUse? d) with
    | some v => some (.notDominated f.name b v)
    | none => (f.earlyUse? d b info.insts.toList info.phis).map (.notDominated f.name b)
  else none

/-- The first thing that is wrong with a function: the ends of all blocks are looked at first, then
the predecessors, then the phis, then the uses. -/
def violation? (f : Function) : Option Violation :=
  let edges := f.incomingEdges
  let dominance := Dominance.ofGraph (Graph.ofFunction f)
  (f.blockIds.findSome? f.endViolation?)
    <|> (f.blockIds.findSome? (f.predsViolation? edges))
    <|> (f.blockIds.findSome? fun b => (f.block b).phis.findSome? (f.phiViolation? b))
    <|> (f.blockIds.findSome? (f.useViolation? dominance))

end Function

end Abacus.Flow
