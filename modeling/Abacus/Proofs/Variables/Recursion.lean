import Abacus.Proofs.Variables.Recording

/-!
# Reading by recursion

A search can be written down as a recursion over the blocks that it goes through. Here it is, for
comparison: nothing is compiled with it, since a chain of many blocks would make it just as deep.

* a block that has a value gives it;
* a block that is not sealed gets a phi, which waits for the block to be sealed;
* a block with one predecessor takes what that one gives, and keeps it;
* every other block gets a phi first, and then an operand for each predecessor, in their order.

A block that is sealed gives operands to the phis that wait there in the same way, in the order in which
they were made. The number that is handed down bounds the depth of the recursion.
-/

namespace Abacus.Lowering.Recursive

open Abacus.Flow (Value Block)
open Drafting (note rebuild newPhi write)

/-- Gives a phi an operand for each of some predecessors. -/
def giveOperands (read : SymbolId → Block → Drafting Value) (p : OpenPhi) (preds : List Block) :
    Drafting Unit :=
  preds.forM fun q => do
    let v ← read p.var q
    rebuild fun b => b.addIncoming p.phi q v

/-- The value of a variable at the end of a block. -/
def read : Nat → SymbolId → Block → Drafting Value
  | 0, x, b => throw (.ofDefect (.endless x b))
  | depth + 1, x, b => do
    let d ← get
    match d.known.value? x b with
    | some v => return v
    | none =>
      if d.known.isSealed b then
        match d.builder.preds b with
        | [q] => do
          let v ← read depth x q
          write x b v
          return v
        | preds => do
          let phi ← newPhi x b
          write x b phi
          giveOperands (read depth) ⟨x, b, phi⟩ preds
          return phi
      else
        let phi ← newPhi x b
        note fun known => { known with incomplete := known.incomplete ++ [⟨x, b, phi⟩] }
        write x b phi
        return phi

/-- Seals a block. Of its phis the one made first gets its operands first. -/
def sealBlock (depth : Nat) (b : Block) : Drafting Unit := do
  let d ← get
  if d.known.isSealed b then throw (.ofDefect (.sealedTwice b))
  note fun known => { known with incomplete := known.incomplete.filter (·.block ≠ b) }
  (d.known.incompleteOf b).forM fun p =>
    giveOperands (read depth) p (d.builder.preds p.block)
  note fun known => { known with sealedBlocks := known.sealedBlocks.insert b }

end Abacus.Lowering.Recursive
