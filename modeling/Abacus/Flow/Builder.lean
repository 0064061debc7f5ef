import Abacus.Flow.Basic

/-!
# Building a function

A `Builder` holds a function under construction and the block into which instructions go. Ending a
block records it as a predecessor of each block in which it goes on, in the order of the edges.
-/

namespace Abacus.Flow

/-- A function under construction and its current block. -/
structure Builder where
  function : Function
  current : Block
  deriving DecidableEq, Inhabited

namespace Builder

/-- A block in an entry that already reads its parameters. -/
def entryInfo (params : List Ty) : BlockInfo :=
  { BlockInfo.fresh "entry" with
    insts := (Array.range params.length).map Value.mk }

/-- The instructions that read the parameters. -/
def paramValues (params : List Ty) : Array ValueInfo :=
  (params.zipIdx.map fun (ty, index) => ⟨ty, .param index, Function.entry⟩).toArray

/-- A function whose entry reads its parameters. The entry is the current block. -/
def start (name : String) (params : List Ty) (result : Ty) : Builder where
  function := ⟨name, params, result, #[entryInfo params], paramValues params⟩
  current := Function.entry

/-! ## Looking -/

/-- The value of a parameter. -/
def param? (b : Builder) (index : Nat) : Option Value :=
  if index < b.function.params.length then some ⟨index⟩ else none

/-- The number of blocks. -/
def blockCount (b : Builder) : Nat := b.function.blocks.size

/-- The predecessors of a block so far. -/
def preds (b : Builder) (block : Block) : List Block := b.function.preds block

/-- Has the block got its end? -/
def isTerminated (b : Builder) (block : Block) : Bool :=
  (b.function.block block).terminator?.isSome

/-- The type of a value. -/
def ty (b : Builder) (v : Value) : Ty := (b.function.value v).ty

/-- The operands of a phi so far. -/
def incoming (b : Builder) (phi : Value) : List (Block × Value) :=
  match b.function.inst phi with
  | .phi incoming => incoming
  | _ => []

/-! ## Changing -/

/-- Changes what a block holds. -/
def modifyBlock (b : Builder) (block : Block) (change : BlockInfo → BlockInfo) : Builder :=
  { b with function := { b.function with
      blocks := b.function.blocks.modify block.index change } }

/-- Makes another block current. -/
def setCurrent (b : Builder) (block : Block) : Builder := { b with current := block }

/-- Adds an empty block. -/
def newBlock (b : Builder) (label : String) : Block × Builder :=
  (⟨b.function.blocks.size⟩,
    { b with function := { b.function with
        blocks := b.function.blocks.push (BlockInfo.fresh label) } })

/-- Adds a value without putting it into the list of a block. -/
def newValue (b : Builder) (inst : Inst) (ty : Ty) (block : Block) : Value × Builder :=
  (⟨b.function.values.size⟩,
    { b with function := { b.function with
        values := b.function.values.push ⟨ty, inst, block⟩ } })

/-- Adds an instruction at the end of the current block. -/
def push (b : Builder) (inst : Inst) (ty : Ty) : Value × Builder :=
  let (v, b) := b.newValue inst ty b.current
  (v, b.modifyBlock b.current fun info => { info with insts := info.insts.push v })

/-- Adds a phi without operands at the head of a block. -/
def phi (b : Builder) (block : Block) (ty : Ty) : Value × Builder :=
  let (v, b) := b.newValue (.phi []) ty block
  (v, b.modifyBlock block fun info => { info with phis := info.phis ++ [v] })

/-- Gives a phi its next operand. A value that is no phi stays as it is. -/
def addIncoming (b : Builder) (phi : Value) (pred : Block) (v : Value) : Builder :=
  { b with function := { b.function with
      values := b.function.values.modify phi.index fun info =>
        match info.inst with
        | .phi incoming => { info with inst := .phi (incoming ++ [(pred, v)]) }
        | _ => info } }

/-- Records that an edge leads from `source` to `target`. -/
def addEdge (b : Builder) (source target : Block) : Builder :=
  b.modifyBlock target fun info => { info with preds := info.preds ++ [source] }

/-- Ends the current block. -/
def terminate (b : Builder) (terminator : Terminator) : Builder :=
  let source := b.current
  let b := terminator.successors.foldl (fun b target => b.addEdge source target) b
  b.modifyBlock source fun info => { info with terminator? := some terminator }

/-- Ends the current block with a call that goes on in `normal` or in `unwind`. The call itself
stands in no list of instructions, because its result exists in `normal` only. -/
def invoke (b : Builder) (callee : String) (arguments : List Value) (result : Ty)
    (normal unwind : Block) : Value × Builder :=
  let (call, b) := b.newValue (.call callee arguments) result b.current
  (call, b.terminate (.invoke call normal unwind))

end Builder

end Abacus.Flow
