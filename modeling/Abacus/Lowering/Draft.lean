import Std.Data.TreeMap
import Std.Data.TreeSet
import Abacus.Flow.Builder
import Abacus.Lowering.Error

/-!
# Variables in a growing flow graph

A `Draft` is a function under construction together with what its variables hold in its blocks. A
block is *sealed* once no further edge will lead to it. Reading a variable in a block looks for its
last assignment backwards:

* the block has a value for it: that is the result;
* the block is not sealed: a phi stands for the value, and gets its operands when the block is
  sealed;
* the block has one predecessor: the search goes on there (`Draft.walk`);
* otherwise a phi stands for the value, and its operands are read in the predecessors.

A phi is bound to its variable before its operands are read, so a loop in the graph comes back to
the phi. The blocks that the search has gone through keep the result.

* `Draft.walk` — the search through blocks with one predecessor;
* `Drafting.resolve` — the value of a variable in a block, and the phis that still need operands;
* `Drafting.fill` — gives phis their operands;
* `Drafting.read`, `Drafting.seal` — what the rest of the compiler uses.
-/

namespace Abacus.Lowering

open Abacus.Flow (Value Block Ty Inst Terminator Builder)

/-! ## What is known about variables -/

/-- A variable at the end of a block. -/
structure Site where
  var : SymbolId
  block : Block
  deriving DecidableEq, Repr, Inhabited

namespace Site

/-- Sites are ordered by variable, then by block. -/
instance : Ord Site := ⟨compareLex (compareOn Site.var) (compareOn Site.block)⟩

instance : Std.TransOrd Site :=
  inferInstanceAs (Std.TransCmp (compareLex (compareOn Site.var) (compareOn Site.block)))

instance : Std.LawfulEqOrd Site where
  eq_of_compare {a b} h := by
    have h' := compareLex_eq_eq.1 h
    obtain ⟨a1, a2⟩ := a
    obtain ⟨b1, b2⟩ := b
    have h1 : a1 = b1 := Std.LawfulEqOrd.eq_of_compare h'.1
    have h2 : a2 = b2 := Std.LawfulEqOrd.eq_of_compare h'.2
    rw [h1, h2]

end Site

/-- A phi that needs operands, with the variable and the block that it stands for. -/
structure OpenPhi where
  var : SymbolId
  block : Block
  phi : Value
  deriving DecidableEq, Repr

/-- What is known about the variables of a function. `incomplete` lists the phis that wait for
their block to be sealed, in the order in which they were made. -/
structure Variables where
  bindings : Std.TreeMap Site Value
  incomplete : List OpenPhi
  sealedBlocks : Std.TreeSet Block
  types : Std.TreeMap SymbolId Ty
  owners : Std.TreeMap Value SymbolId

namespace Variables

/-- Nothing is known. -/
def empty : Variables := ⟨∅, [], ∅, ∅, ∅⟩

/-- The value of a variable at the end of a block, where it is known. -/
def value? (known : Variables) (var : SymbolId) (block : Block) : Option Value :=
  known.bindings[(⟨var, block⟩ : Site)]?

/-- Records the value of a variable at the end of a block. -/
def write (known : Variables) (var : SymbolId) (block : Block) (v : Value) : Variables :=
  { known with bindings := known.bindings.insert ⟨var, block⟩ v }

theorem value?_write (known : Variables) (var : SymbolId) (block : Block) (v : Value) :
    (known.write var block v).value? var block = some v := by
  simp [value?, write]

theorem value?_write_of_ne (known : Variables) {var other : SymbolId} {block otherBlock : Block}
    (v : Value) (h : (⟨var, block⟩ : Site) ≠ ⟨other, otherBlock⟩) :
    (known.write var block v).value? other otherBlock = known.value? other otherBlock := by
  simp [value?, write, Std.TreeMap.getElem?_insert, h]

/-- Records one value of a variable for several blocks. -/
def writeAll (known : Variables) (var : SymbolId) (blocks : List Block) (v : Value) : Variables :=
  blocks.foldl (fun known block => known.write var block v) known

/-- Records the type of a variable. The first type given stays. -/
def declare (known : Variables) (var : SymbolId) (ty : Ty) : Variables :=
  { known with types := known.types.insertIfNew var ty }

/-- The type of a variable. -/
def type? (known : Variables) (var : SymbolId) : Option Ty := known.types[var]?

theorem type?_declare (known : Variables) (var : SymbolId) (ty : Ty) :
    (known.declare var ty).type? var = some ((known.type? var).getD ty) := by
  unfold type? declare
  rw [Std.TreeMap.getElem?_insertIfNew]
  split
  · next h =>
    rw [Std.TreeMap.getElem?_eq_none h.2]
    rfl
  · next h =>
    have hmem : var ∈ known.types := by simpa using h
    rw [Std.TreeMap.getElem?_eq_some_getElem hmem]
    rfl

/-- Has the block been sealed? -/
def isSealed (known : Variables) (block : Block) : Bool := known.sealedBlocks.contains block

/-- Records that a phi stands for a variable. -/
def own (known : Variables) (phi : Value) (var : SymbolId) : Variables :=
  { known with owners := known.owners.insert phi var }

/-- The number of phis that were made for a variable. -/
def phiCount (known : Variables) (var : SymbolId) : Nat := known.owners.values.count var

/-- The number of phis that were made. -/
def totalPhis (known : Variables) : Nat := known.owners.size

/-- The incomplete phis of a block. -/
def incompleteOf (known : Variables) (block : Block) : List OpenPhi :=
  known.incomplete.filter (·.block = block)

/-- Everything is known only when no phi waits any more. The complaint is about the first block
that has one. -/
def finish (known : Variables) : Except LoweringError Unit :=
  match (known.incomplete.map (·.block.index)).min? with
  | none => .ok ()
  | some index =>
    .error (.ofDefect (.neverSealed ⟨index⟩ (known.incompleteOf ⟨index⟩).length))

end Variables

/-! ## Drafts -/

/-- A function under construction and what is known about its variables. -/
structure Draft where
  builder : Builder
  known : Variables

namespace Draft

/-- How a walk ends: at a block that has a value, at one that is not sealed, at a sealed one with
no or several predecessors, or, if the walk would go round for ever, nowhere. -/
inductive WalkEnd where
  | bound (v : Value)
  | unsealed (block : Block)
  | merge (block : Block)
  | endless
  deriving DecidableEq, Repr

/-- Walks backwards from a block, through sealed blocks with one predecessor in which the variable
has no value. Gives the blocks gone through and how the walk ended, in at most `steps` steps. -/
def walk (d : Draft) (var : SymbolId) : Nat → Block → List Block × WalkEnd
  | 0, _ => ([], .endless)
  | steps + 1, block =>
    match d.known.value? var block with
    | some v => ([], .bound v)
    | none =>
      if d.known.isSealed block then
        match d.builder.preds block with
        | [pred] =>
          let (gone, stop) := d.walk var steps pred
          (block :: gone, stop)
        | _ => ([], .merge block)
      else ([], .unsealed block)

/-- A walk of more steps than there are blocks goes round in a cycle. -/
def walkFrom (d : Draft) (var : SymbolId) (block : Block) : List Block × WalkEnd :=
  d.walk var (d.builder.blockCount + 1) block

end Draft

/-- Works on a draft. When the work fails, what has been done to the draft before stays done. -/
abbrev Drafting (α : Type) := ExceptT LoweringError (StateM Draft) α

namespace Drafting

/-- Does the work on a draft: its result, and the draft after it. -/
def on {α : Type} (work : Drafting α) (d : Draft) : Except LoweringError α × Draft :=
  (ExceptT.run work).run d

/-! ## Building -/

/-- Runs a step of the builder. -/
def build {α : Type} (change : Builder → α × Builder) : Drafting α := modifyGet fun d =>
  let (a, builder) := change d.builder
  (a, { d with builder := builder })

/-- Changes the builder. -/
def rebuild (change : Builder → Builder) : Drafting Unit := build fun b => ((), change b)

/-- Changes what is known about the variables. -/
def note (change : Variables → Variables) : Drafting Unit :=
  modify fun d => { d with known := change d.known }

/-- Appends an instruction to the current block. -/
def emit (inst : Inst) (ty : Ty) : Drafting Value := build fun b => b.push inst ty

/-- Adds an empty block. -/
def newBlock (label : String) : Drafting Block := build fun b => b.newBlock label

/-- The current block. -/
def currentBlock : Drafting Block := return (← get).builder.current

/-- Makes another block current. -/
def setCurrent (block : Block) : Drafting Unit := rebuild fun b => b.setCurrent block

/-- Ends the current block. -/
def terminate (terminator : Terminator) : Drafting Unit := rebuild fun b => b.terminate terminator

/-- The type of a value. -/
def typeOf (v : Value) : Drafting Ty := return (← get).builder.ty v

/-- Records the value of a variable at the end of a block. -/
def write (var : SymbolId) (block : Block) (v : Value) : Drafting Unit :=
  note fun known => known.write var block v

/-- Records the type of a variable. -/
def declare (var : SymbolId) (ty : Ty) : Drafting Unit := note fun known => known.declare var ty

/-! ## Reading variables -/

/-- A new phi for a variable, which must have a type. -/
def newPhi (var : SymbolId) (block : Block) : Drafting Value := do
  match (← get).known.type? var with
  | none => throw (.ofDefect (.undeclared var block))
  | some ty =>
    let phi ← build fun b => b.phi block ty
    note fun known => known.own phi var
    return phi

/-- The value of a variable at the end of a block, and the phis made on the way that need operands
now. -/
def resolve (var : SymbolId) (block : Block) : Drafting (Value × List OpenPhi) := do
  match (← get).walkFrom var block with
  | (gone, .bound v) =>
    note fun known => known.writeAll var gone v
    return (v, [])
  | (gone, .unsealed stop) =>
    let phi ← newPhi var stop
    note fun known => { known with incomplete := known.incomplete ++ [⟨var, stop, phi⟩] }
    note fun known => known.writeAll var (gone ++ [stop]) phi
    return (phi, [])
  | (gone, .merge stop) =>
    let phi ← newPhi var stop
    note fun known => known.writeAll var (stop :: gone) phi
    return (phi, [⟨var, stop, phi⟩])
  | (_, .endless) => throw (.ofDefect (.endless var block))

/-- Gives a phi its operand for one predecessor. The phis that this makes go in front of `later`. -/
def fillFrom (p : OpenPhi) (later : List OpenPhi) (pred : Block) : Drafting (List OpenPhi) := do
  let (v, made) ← resolve p.var pred
  rebuild fun b => b.addIncoming p.phi pred v
  return made ++ later

/-- Gives phis their operands, one for each predecessor and in that order. The phis that this makes
get theirs first. At most `rounds` phis are filled. -/
def fill : Nat → List OpenPhi → Drafting Unit
  | _, [] => return ()
  | 0, p :: _ => throw (.ofDefect (.endless p.var p.block))
  | rounds + 1, p :: rest => do
    let preds := (← get).builder.preds p.block
    fill rounds (← preds.foldlM (fillFrom p) rest)

/-- Gives all of the phis their operands. A block gets at most one further phi for each of their
variables, which bounds the number of phis to fill. -/
def fillAll (phis : List OpenPhi) : Drafting Unit := do
  fill (phis.length * ((← get).builder.blockCount + 1)) phis

/-- The value of a variable at the end of a block. -/
def read (var : SymbolId) (block : Block) : Drafting Value := do
  let (v, made) ← resolve var block
  fillAll made
  return v

/-- Seals a block: all edges into it are there. Its phis get their operands, the one made last
first. -/
def sealBlock (block : Block) : Drafting Unit := do
  let known := (← get).known
  if known.isSealed block then throw (.ofDefect (.sealedTwice block))
  note fun known => { known with incomplete := known.incomplete.filter (·.block ≠ block) }
  fillAll (known.incompleteOf block).reverse
  note fun known => { known with sealedBlocks := known.sealedBlocks.insert block }

end Drafting

end Abacus.Lowering
