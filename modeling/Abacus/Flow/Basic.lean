/-!
# Flow graphs

The intermediate form of a program. A function is a list of blocks and a list of values; every
instruction is a value, and a value is assigned in one place only. A block holds phis, then
instructions, then one terminator, and records its predecessors in the order in which the edges
into it were made. The operands of a phi follow that order.

Values and blocks are named by their numbers. A number that names nothing stands for the value or
block `default`, so that every function below is total; the verifier and the machine say what they
make of such graphs.
-/

namespace Abacus.Flow

/-- The number of a value of a function. -/
structure Value where
  index : Nat
  deriving DecidableEq, Repr, Inhabited

/-- The number of a block of a function. -/
structure Block where
  index : Nat
  deriving DecidableEq, Repr, Inhabited

instance : Ord Value := ⟨fun a b => compare a.index b.index⟩

instance : Ord Block := ⟨fun a b => compare a.index b.index⟩

instance : Std.TransOrd Value := inferInstanceAs (Std.TransCmp (compareOn Value.index))

instance : Std.TransOrd Block := inferInstanceAs (Std.TransCmp (compareOn Block.index))

instance : Std.LawfulEqOrd Value where
  eq_of_compare {a b} h := by
    cases a; cases b
    simpa using Nat.compare_eq_eq.1 h

instance : Std.LawfulEqOrd Block where
  eq_of_compare {a b} h := by
    cases a; cases b
    simpa using Nat.compare_eq_eq.1 h

/-- The types of values. `fault` is a fault on its way to a handler; `unit` has no content. -/
inductive Ty where
  | int
  | float
  | bool
  | fault
  | unit
  deriving DecidableEq, Repr, Inhabited

/-- Arithmetic on two operands. -/
inductive Arith where
  | add
  | sub
  | mul
  | div
  deriving DecidableEq, Repr, Inhabited

/-- Comparison of two operands. -/
inductive Compare where
  | less
  | greater
  | equal
  | notEqual
  deriving DecidableEq, Repr, Inhabited

/-- The instructions. -/
inductive Inst where
  | intConst (value : Int64)
  | floatConst (value : Float)
  | param (index : Nat)
  | intArith (op : Arith) (lhs rhs : Value)
  | floatArith (op : Arith) (lhs rhs : Value)
  | intCompare (op : Compare) (lhs rhs : Value)
  | floatCompare (op : Compare) (lhs rhs : Value)
  /-- The integer 0 or 1 of a truth value. -/
  | boolToInt (operand : Value)
  | intToFloat (operand : Value)
  | floatToInt (operand : Value)
  /-- The value that belongs to the edge on which control came. -/
  | phi (incoming : List (Block × Value))
  /-- A call; it stands among the instructions of a block, or belongs to an `invoke`. -/
  | call (callee : String) (arguments : List Value)
  /-- A new fault. -/
  | faultAlloc (code typeId : Int64)
  /-- The fault that has arrived at this block. -/
  | landingPad
  /-- The type of a fault. A negative one belongs to no program of this language. -/
  | faultSelector (fault : Value)
  /-- The type of the faults of this program. -/
  | faultTypeId (typeId : Int64)
  /-- Enters a handler; gives the code of the fault. -/
  | beginCatch (fault : Value)
  | reportFault (code : Value)
  | endCatch
  /-- What happens to a fault that no handler takes. -/
  | callUnexpected (fault : Value)
  deriving DecidableEq, Inhabited

/-- The values that an instruction reads, in order. -/
def Inst.operands : Inst → List Value
  | intConst _ | floatConst _ | param _ | faultAlloc .. | landingPad | faultTypeId _
  | endCatch => []
  | intArith _ lhs rhs | floatArith _ lhs rhs | intCompare _ lhs rhs | floatCompare _ lhs rhs =>
    [lhs, rhs]
  | boolToInt v | intToFloat v | floatToInt v | faultSelector v | beginCatch v | reportFault v
  | callUnexpected v => [v]
  | phi incoming => incoming.map Prod.snd
  | call _ arguments => arguments

/-- What ends a block. -/
inductive Terminator where
  | jump (dest : Block)
  | branch (condition : Value) (thenDest elseDest : Block)
  | ret (value : Value)
  /-- Runs the call `call`, goes on in `normal` with its result, or in `unwind` with the fault
  that it raised. -/
  | invoke (call : Value) (normal unwind : Block)
  /-- Raises a fault. -/
  | raise (fault : Value)
  /-- Passes a fault on to the caller. -/
  | resume (fault : Value)
  | unreachable
  deriving DecidableEq, Inhabited

/-- The blocks in which control may go on, in the order of the edges. -/
def Terminator.successors : Terminator → List Block
  | jump dest => [dest]
  | branch _ thenDest elseDest => [thenDest, elseDest]
  | invoke _ normal unwind => [normal, unwind]
  | ret _ | raise _ | resume _ | unreachable => []

/-- A value: its type, the instruction that gives it, and the block in which that stands. -/
structure ValueInfo where
  ty : Ty
  inst : Inst
  block : Block
  deriving DecidableEq, Inhabited

/-- A block. `preds` has one entry for each edge into the block. -/
structure BlockInfo where
  label : String
  phis : List Value
  insts : Array Value
  terminator? : Option Terminator
  preds : List Block
  deriving DecidableEq, Inhabited

/-- A block that nothing has been put into yet. -/
def BlockInfo.fresh (label : String) : BlockInfo := ⟨label, [], #[], none, []⟩

/-- A function: its blocks, of which the first is the entry, and its values. -/
structure Function where
  name : String
  params : List Ty
  result : Ty
  blocks : Array BlockInfo
  values : Array ValueInfo
  deriving DecidableEq, Inhabited

namespace Function

/-- The block in which a function starts. -/
def entry : Block := ⟨0⟩

/-- What a block holds. -/
def block (f : Function) (b : Block) : BlockInfo := f.blocks.getD b.index default

/-- What a value is. -/
def value (f : Function) (v : Value) : ValueInfo := f.values.getD v.index default

/-- The instruction that gives a value. -/
def inst (f : Function) (v : Value) : Inst := (f.value v).inst

/-- The recorded predecessors of a block. -/
def preds (f : Function) (b : Block) : List Block := (f.block b).preds

/-- Where control may go from a block; nowhere if the block has no end yet. -/
def successors (f : Function) (b : Block) : List Block :=
  match (f.block b).terminator? with
  | some terminator => terminator.successors
  | none => []

/-- All blocks, in order. -/
def blockIds (f : Function) : List Block := (List.range f.blocks.size).map Block.mk

/-- The first block with the given label. -/
def blockByLabel? (f : Function) (label : String) : Option Block :=
  f.blockIds.find? fun b => (f.block b).label = label

/-- The values that stand as phis at the heads of blocks, in the order of the blocks. -/
def phis (f : Function) : List Value := f.blocks.toList.flatMap BlockInfo.phis

/-- The number of blocks that end in an `invoke`. -/
def invokeCount (f : Function) : Nat :=
  f.blocks.toList.countP fun b => match b.terminator? with
    | some (.invoke ..) => true
    | _ => false

end Function

/-- The functions that one compilation gives. -/
structure Module where
  functions : List Function
  deriving DecidableEq, Inhabited

end Abacus.Flow
