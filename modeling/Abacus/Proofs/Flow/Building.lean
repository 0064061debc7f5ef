import Abacus.Flow.Builder
import Mathlib.Data.List.Basic
import Mathlib.Tactic.Common

/-!
# What the steps of a builder change

Each step of a `Builder` is described through the two views of a function that the rest of the
theory uses: what a block holds (`Function.block`) and what a value is (`Function.value`).

* `block_push`, `block_newBlock`, `block_phi`, `block_terminate`, ... — the blocks after a step;
* `value_push`, `value_phi`, `value_addIncoming`, ... — the values after a step.

A step never removes anything: `Builder.valueCount` and `Builder.blockCount` only go up.
-/

namespace Abacus.Flow

/-! ## Numbers and ranges -/

theorem Block.ext_index {a b : Block} (h : a.index = b.index) : a = b := by
  cases a; cases b; simp_all

theorem Value.ext_index {a b : Value} (h : a.index = b.index) : a = b := by
  cases a; cases b; simp_all

theorem Block.index_ne {a b : Block} (h : a ≠ b) : a.index ≠ b.index :=
  fun hi => h (Block.ext_index hi)

/-- Is the instruction a phi? -/
def Inst.isPhi : Inst → Bool
  | phi _ => true
  | _ => false

namespace Function

/-- A block that does not exist holds nothing. -/
theorem block_of_le {f : Function} {b : Block} (h : f.blocks.size ≤ b.index) :
    f.block b = default := by
  simp [block, Array.getD_eq_getD_getElem?, h]

theorem value_of_le {f : Function} {v : Value} (h : f.values.size ≤ v.index) :
    f.value v = default := by
  simp [value, Array.getD_eq_getD_getElem?, h]

@[simp] theorem terminator?_default : (default : BlockInfo).terminator? = none := rfl

@[simp] theorem preds_default : (default : BlockInfo).preds = [] := rfl

@[simp] theorem phis_default : (default : BlockInfo).phis = [] := rfl

@[simp] theorem insts_default : (default : BlockInfo).insts = #[] := rfl

/-- Only an existing block leads anywhere. -/
theorem lt_of_mem_successors {f : Function} {b c : Block} (h : c ∈ f.successors b) :
    b.index < f.blocks.size := by
  by_contra hb
  simp [successors, block_of_le (Nat.not_lt.1 hb)] at h

theorem successors_eq {f : Function} {b : Block} {t : Terminator}
    (h : (f.block b).terminator? = some t) : f.successors b = t.successors := by
  simp [successors, h]

end Function

namespace Builder

/-- The number of values. -/
def valueCount (b : Builder) : Nat := b.function.values.size

/-- What a block holds so far. -/
abbrev info (b : Builder) (block : Block) : BlockInfo := b.function.block block

/-- What a value is. -/
abbrev valueInfo (b : Builder) (v : Value) : ValueInfo := b.function.value v

/-! ## The two ways of changing -/

theorem info_modifyBlock (b : Builder) (block c : Block) (change : BlockInfo → BlockInfo) :
    (b.modifyBlock block change).info c =
      if c = block ∧ c.index < b.blockCount then change (b.info c) else b.info c := by
  unfold info modifyBlock Function.block blockCount
  simp only [Array.getD_eq_getD_getElem?, Array.getElem?_modify]
  by_cases hc : c = block
  · subst hc
    by_cases hlt : c.index < b.function.blocks.size
    · simp [hlt]
    · simp [hlt]
  · have hi : block.index ≠ c.index := fun h => hc (Block.ext_index h.symm)
    simp [hc, hi]

theorem valueInfo_newValue (b : Builder) (inst : Inst) (ty : Ty) (block : Block) (v : Value) :
    (b.newValue inst ty block).2.valueInfo v =
      if v.index = b.valueCount then ⟨ty, inst, block⟩ else b.valueInfo v := by
  unfold valueInfo newValue Function.value valueCount
  simp only [Array.getD_eq_getD_getElem?, Array.getElem?_push]
  split <;> rfl

@[simp] theorem valueInfo_modifyBlock (b : Builder) (block : Block)
    (change : BlockInfo → BlockInfo) (v : Value) :
    (b.modifyBlock block change).valueInfo v = b.valueInfo v := rfl

@[simp] theorem blockCount_modifyBlock (b : Builder) (block : Block)
    (change : BlockInfo → BlockInfo) :
    (b.modifyBlock block change).blockCount = b.blockCount := by
  simp [blockCount, modifyBlock]

@[simp] theorem valueCount_modifyBlock (b : Builder) (block : Block)
    (change : BlockInfo → BlockInfo) :
    (b.modifyBlock block change).valueCount = b.valueCount := rfl

@[simp] theorem current_modifyBlock (b : Builder) (block : Block)
    (change : BlockInfo → BlockInfo) :
    (b.modifyBlock block change).current = b.current := rfl

/-! ## New blocks -/

@[simp] theorem newBlock_fst (b : Builder) (label : String) :
    (b.newBlock label).1 = ⟨b.blockCount⟩ := rfl

theorem info_newBlock (b : Builder) (label : String) (c : Block) :
    (b.newBlock label).2.info c =
      if c.index = b.blockCount then BlockInfo.fresh label else b.info c := by
  unfold info newBlock Function.block blockCount
  simp only [Array.getD_eq_getD_getElem?, Array.getElem?_push]
  split <;> rfl

@[simp] theorem valueInfo_newBlock (b : Builder) (label : String) (v : Value) :
    (b.newBlock label).2.valueInfo v = b.valueInfo v := rfl

@[simp] theorem blockCount_newBlock (b : Builder) (label : String) :
    (b.newBlock label).2.blockCount = b.blockCount + 1 := by
  simp [blockCount, newBlock]

@[simp] theorem valueCount_newBlock (b : Builder) (label : String) :
    (b.newBlock label).2.valueCount = b.valueCount := rfl

@[simp] theorem current_newBlock (b : Builder) (label : String) :
    (b.newBlock label).2.current = b.current := rfl

/-! ## Another current block -/

@[simp] theorem function_setCurrent (b : Builder) (block : Block) :
    (b.setCurrent block).function = b.function := rfl

@[simp] theorem current_setCurrent (b : Builder) (block : Block) :
    (b.setCurrent block).current = block := rfl

@[simp] theorem blockCount_setCurrent (b : Builder) (block : Block) :
    (b.setCurrent block).blockCount = b.blockCount := rfl

@[simp] theorem valueCount_setCurrent (b : Builder) (block : Block) :
    (b.setCurrent block).valueCount = b.valueCount := rfl

/-! ## Instructions -/

@[simp] theorem push_fst (b : Builder) (inst : Inst) (ty : Ty) :
    (b.push inst ty).1 = ⟨b.valueCount⟩ := rfl

theorem info_push (b : Builder) (inst : Inst) (ty : Ty) (c : Block) :
    (b.push inst ty).2.info c =
      if c = b.current ∧ c.index < b.blockCount then
        { b.info c with insts := (b.info c).insts.push ⟨b.valueCount⟩ }
      else b.info c :=
  info_modifyBlock (b.newValue inst ty b.current).2 b.current c _

theorem valueInfo_push (b : Builder) (inst : Inst) (ty : Ty) (v : Value) :
    (b.push inst ty).2.valueInfo v =
      if v.index = b.valueCount then ⟨ty, inst, b.current⟩ else b.valueInfo v :=
  valueInfo_newValue b inst ty b.current v

@[simp] theorem blockCount_push (b : Builder) (inst : Inst) (ty : Ty) :
    (b.push inst ty).2.blockCount = b.blockCount :=
  blockCount_modifyBlock (b.newValue inst ty b.current).2 _ _

@[simp] theorem valueCount_push (b : Builder) (inst : Inst) (ty : Ty) :
    (b.push inst ty).2.valueCount = b.valueCount + 1 := by
  simp [push, valueCount, modifyBlock, newValue]

@[simp] theorem current_push (b : Builder) (inst : Inst) (ty : Ty) :
    (b.push inst ty).2.current = b.current := rfl

/-! ## Phis -/

@[simp] theorem phi_fst (b : Builder) (block : Block) (ty : Ty) :
    (b.phi block ty).1 = ⟨b.valueCount⟩ := rfl

theorem info_phi (b : Builder) (block : Block) (ty : Ty) (c : Block) :
    (b.phi block ty).2.info c =
      if c = block ∧ c.index < b.blockCount then
        { b.info c with phis := (b.info c).phis ++ [⟨b.valueCount⟩] }
      else b.info c :=
  info_modifyBlock (b.newValue (.phi []) ty block).2 block c _

theorem valueInfo_phi (b : Builder) (block : Block) (ty : Ty) (v : Value) :
    (b.phi block ty).2.valueInfo v =
      if v.index = b.valueCount then ⟨ty, .phi [], block⟩ else b.valueInfo v :=
  valueInfo_newValue b (.phi []) ty block v

@[simp] theorem blockCount_phi (b : Builder) (block : Block) (ty : Ty) :
    (b.phi block ty).2.blockCount = b.blockCount :=
  blockCount_modifyBlock (b.newValue (.phi []) ty block).2 _ _

@[simp] theorem valueCount_phi (b : Builder) (block : Block) (ty : Ty) :
    (b.phi block ty).2.valueCount = b.valueCount + 1 := by
  simp [phi, valueCount, modifyBlock, newValue]

@[simp] theorem current_phi (b : Builder) (block : Block) (ty : Ty) :
    (b.phi block ty).2.current = b.current := rfl

/-- An instruction with one more operand, if it is a phi. -/
def addOperand (info : ValueInfo) (pred : Block) (u : Value) : ValueInfo :=
  match info.inst with
  | .phi incoming => { info with inst := .phi (incoming ++ [(pred, u)]) }
  | _ => info

@[simp] theorem addOperand_ty (info : ValueInfo) (pred : Block) (u : Value) :
    (addOperand info pred u).ty = info.ty := by
  unfold addOperand; split <;> rfl

@[simp] theorem addOperand_block (info : ValueInfo) (pred : Block) (u : Value) :
    (addOperand info pred u).block = info.block := by
  unfold addOperand; split <;> rfl

theorem addOperand_inst {info : ValueInfo} {incoming : List (Block × Value)}
    (h : info.inst = .phi incoming) (pred : Block) (u : Value) :
    (addOperand info pred u).inst = .phi (incoming ++ [(pred, u)]) := by
  simp [addOperand, h]

theorem valueInfo_addIncoming (b : Builder) (phi : Value) (pred : Block) (u v : Value) :
    (b.addIncoming phi pred u).valueInfo v =
      if v = phi ∧ v.index < b.valueCount then addOperand (b.valueInfo v) pred u
      else b.valueInfo v := by
  unfold valueInfo addIncoming Function.value valueCount
  simp only [Array.getD_eq_getD_getElem?, Array.getElem?_modify]
  by_cases hv : v = phi
  · subst hv
    by_cases hlt : v.index < b.function.values.size
    · simp [hlt]
      rfl
    · simp [hlt]
  · have hi : phi.index ≠ v.index := fun h => hv (Value.ext_index h.symm)
    simp [hv, hi]

@[simp] theorem info_addIncoming (b : Builder) (phi : Value) (pred : Block) (u : Value)
    (c : Block) : (b.addIncoming phi pred u).info c = b.info c := rfl

@[simp] theorem blockCount_addIncoming (b : Builder) (phi : Value) (pred : Block) (u : Value) :
    (b.addIncoming phi pred u).blockCount = b.blockCount := rfl

@[simp] theorem valueCount_addIncoming (b : Builder) (phi : Value) (pred : Block) (u : Value) :
    (b.addIncoming phi pred u).valueCount = b.valueCount := by
  simp [valueCount, addIncoming]

@[simp] theorem current_addIncoming (b : Builder) (phi : Value) (pred : Block) (u : Value) :
    (b.addIncoming phi pred u).current = b.current := rfl

/-- The operands of a phi depend on what it is only. -/
theorem incoming_congr {b c : Builder} {v : Value} (h : b.valueInfo v = c.valueInfo v) :
    b.incoming v = c.incoming v := by
  unfold incoming Function.inst
  rw [show b.function.value v = c.function.value v from h]

theorem incoming_of_inst {b : Builder} {v : Value} {incoming : List (Block × Value)}
    (h : (b.valueInfo v).inst = .phi incoming) : b.incoming v = incoming := by
  unfold Builder.incoming Function.inst
  rw [show (b.function.value v).inst = _ from h]

/-! ## Ends of blocks -/

@[simp] theorem valueInfo_addEdge (b : Builder) (source target : Block) (v : Value) :
    (b.addEdge source target).valueInfo v = b.valueInfo v := rfl

theorem info_addEdges (source : Block) (targets : List Block) (b : Builder) (c : Block)
    (hc : c.index < b.blockCount) :
    (targets.foldl (fun b target => b.addEdge source target) b).info c =
      { b.info c with preds := (b.info c).preds ++ List.replicate (targets.count c) source } := by
  induction targets generalizing b with
  | nil => simp
  | cons target rest ih =>
      have hcount : c.index < (b.addEdge source target).blockCount := by
        simpa [addEdge] using hc
      rw [List.foldl_cons, ih _ hcount, addEdge, info_modifyBlock]
      by_cases h : c = target
      · subst h
        simp [hc, List.replicate_succ]
      · have h' : target ≠ c := fun e => h e.symm
        simp [h, h']

theorem frame_addEdges (source : Block) (targets : List Block) (b : Builder) :
    let after := targets.foldl (fun b target => b.addEdge source target) b
    after.function.values = b.function.values ∧ after.current = b.current ∧
      after.blockCount = b.blockCount ∧ after.function.name = b.function.name ∧
      after.function.params = b.function.params := by
  induction targets generalizing b with
  | nil => simp
  | cons target rest ih =>
      obtain ⟨h1, h2, h3, h4⟩ := ih (b.addEdge source target)
      exact ⟨h1, h2, by simpa [addEdge] using h3, h4⟩

theorem info_terminate (b : Builder) (t : Terminator) (c : Block) (hc : c.index < b.blockCount) :
    (b.terminate t).info c =
      { b.info c with
        preds := (b.info c).preds ++ List.replicate (t.successors.count c) b.current
        terminator? := if c = b.current then some t else (b.info c).terminator? } := by
  have hframe := frame_addEdges b.current t.successors b
  have hc' : c.index < (t.successors.foldl (fun b' x => b'.addEdge b.current x) b).blockCount := by
    rw [hframe.2.2.1]; exact hc
  unfold terminate
  rw [info_modifyBlock, info_addEdges b.current t.successors b c hc]
  by_cases h : c = b.current
  · rw [if_pos ⟨h, hc'⟩, if_pos h]
  · rw [if_neg (fun hb => h hb.1), if_neg h]

@[simp] theorem valueInfo_terminate (b : Builder) (t : Terminator) (v : Value) :
    (b.terminate t).valueInfo v = b.valueInfo v := by
  have hframe := frame_addEdges b.current t.successors b
  unfold terminate
  rw [valueInfo_modifyBlock]
  simp only [valueInfo, Function.value, hframe.1]

@[simp] theorem blockCount_terminate (b : Builder) (t : Terminator) :
    (b.terminate t).blockCount = b.blockCount := by
  unfold terminate
  rw [blockCount_modifyBlock]
  exact (frame_addEdges b.current t.successors b).2.2.1

@[simp] theorem valueCount_terminate (b : Builder) (t : Terminator) :
    (b.terminate t).valueCount = b.valueCount := by
  have hframe := frame_addEdges b.current t.successors b
  simp [terminate, valueCount, modifyBlock, hframe.1]

@[simp] theorem current_terminate (b : Builder) (t : Terminator) :
    (b.terminate t).current = b.current :=
  (frame_addEdges b.current t.successors b).2.1

/-- An end changes neither name nor parameters. -/
theorem signature_terminate (b : Builder) (t : Terminator) :
    (b.terminate t).function.name = b.function.name ∧
      (b.terminate t).function.params = b.function.params :=
  (frame_addEdges b.current t.successors b).2.2.2

theorem invoke_eq (b : Builder) (callee : String) (arguments : List Value) (result : Ty)
    (normal unwind : Block) :
    b.invoke callee arguments result normal unwind =
      (⟨b.valueCount⟩, (b.newValue (.call callee arguments) result b.current).2.terminate
        (.invoke ⟨b.valueCount⟩ normal unwind)) := rfl

theorem blockCount_invoke (b : Builder) (callee : String) (arguments : List Value) (result : Ty)
    (normal unwind : Block) :
    (b.invoke callee arguments result normal unwind).2.blockCount = b.blockCount :=
  blockCount_terminate _ _

/-! ## Edges -/

/-- A block is recorded as a predecessor as often as it leads there. -/
def EdgesAgree (b : Builder) : Prop :=
  ∀ source target, (b.function.successors source).count target = (b.preds target).count source

theorem EdgesAgree.mem {b : Builder} (h : b.EdgesAgree) (source target : Block) :
    target ∈ b.function.successors source ↔ source ∈ b.preds target := by
  rw [← List.count_pos_iff, h source target, List.count_pos_iff]

theorem successors_congr {b c : Builder} {block : Block}
    (h : (b.info block).terminator? = (c.info block).terminator?) :
    b.function.successors block = c.function.successors block := by
  simp only [Function.successors]
  rw [show (b.function.block block).terminator? = (c.function.block block).terminator? from h]

/-- A step that keeps ends and predecessors of blocks keeps the edges. -/
theorem EdgesAgree.congr {b c : Builder} (h : b.EdgesAgree)
    (hinfo : ∀ block, (c.info block).terminator? = (b.info block).terminator? ∧
      (c.info block).preds = (b.info block).preds) : c.EdgesAgree := by
  intro source target
  rw [successors_congr (hinfo source).1, h source target]
  show (b.info target).preds.count source = (c.info target).preds.count source
  rw [(hinfo target).2]

theorem preds_of_le {b : Builder} {block : Block} (h : b.blockCount ≤ block.index) :
    b.preds block = [] := by
  show (b.function.block block).preds = []
  rw [Function.block_of_le h]
  rfl

theorem preds_terminate {b : Builder} {t : Terminator} {block : Block}
    (h : block.index < b.blockCount) : (b.terminate t).preds block =
      b.preds block ++ List.replicate (t.successors.count block) b.current := by
  show ((b.terminate t).info block).preds = _
  rw [info_terminate b t block h]
  rfl

/-- Only the blocks that an end leads to get predecessors. -/
theorem preds_terminate_of_notMem {b : Builder} {t : Terminator} {block : Block}
    (h : block ∉ t.successors) : (b.terminate t).preds block = b.preds block := by
  by_cases hlt : block.index < b.blockCount
  · rw [preds_terminate hlt, List.count_eq_zero_of_not_mem h]
    simp
  · have hle := Nat.not_lt.1 hlt
    rw [preds_of_le hle, preds_of_le (by rw [blockCount_terminate]; exact hle)]

/-- New edges come from the block that has got its end. -/
theorem mem_preds_terminate {b : Builder} {t : Terminator} {block q : Block}
    (h : q ∈ (b.terminate t).preds block) : q ∈ b.preds block ∨ q = b.current := by
  by_cases hlt : block.index < b.blockCount
  · rw [preds_terminate hlt] at h
    exact (List.mem_append.1 h).imp_right List.eq_of_mem_replicate
  · rw [preds_of_le (by rw [blockCount_terminate]; exact Nat.not_lt.1 hlt)] at h
    cases h

/-- A new block takes part in nothing. -/
theorem frame_newBlock (b : Builder) (label : String) (c : Block) :
    (b.newBlock label).2.preds c = b.preds c ∧
      ((b.newBlock label).2.info c).phis = (b.info c).phis := by
  show ((b.newBlock label).2.info c).preds = (b.info c).preds ∧ _
  rw [info_newBlock]
  split
  · next hc =>
    rw [show b.info c = default from Function.block_of_le (Nat.le_of_eq hc.symm)]
    exact ⟨rfl, rfl⟩
  · exact ⟨rfl, rfl⟩

theorem frame_push (b : Builder) (inst : Inst) (ty : Ty) (c : Block) :
    (b.push inst ty).2.preds c = b.preds c ∧ ((b.push inst ty).2.info c).phis = (b.info c).phis := by
  show ((b.push inst ty).2.info c).preds = (b.info c).preds ∧ _
  rw [info_push]
  split <;> exact ⟨rfl, rfl⟩

theorem preds_phi (b : Builder) (block : Block) (ty : Ty) (c : Block) :
    (b.phi block ty).2.preds c = b.preds c := by
  show ((b.phi block ty).2.info c).preds = (b.info c).preds
  rw [info_phi]
  split <;> rfl

theorem phis_terminate (b : Builder) (t : Terminator) (c : Block) :
    ((b.terminate t).info c).phis = (b.info c).phis := by
  by_cases hc : c.index < b.blockCount
  · rw [info_terminate b t c hc]
  · have hle : (b.terminate t).blockCount ≤ c.index := by
      rw [blockCount_terminate]
      exact Nat.not_lt.1 hc
    rw [show (b.terminate t).info c = default from Function.block_of_le hle,
      show b.info c = default from Function.block_of_le (Nat.not_lt.1 hc)]

/-- Ending the current block, which has no end yet, sets where it leads. -/
theorem successors_terminate {b : Builder} {t : Terminator} {source : Block}
    (hcurrent : b.current.index < b.blockCount) : (b.terminate t).function.successors source =
      if source = b.current then t.successors else b.function.successors source := by
  by_cases hlt : source.index < b.blockCount
  · have hinfo : ((b.terminate t).function.block source).terminator? =
        if source = b.current then some t else (b.function.block source).terminator? := by
      rw [show (b.terminate t).function.block source = _ from info_terminate b t source hlt]
    by_cases hsource : source = b.current
    · rw [if_pos hsource] at hinfo ⊢
      exact Function.successors_eq hinfo
    · rw [if_neg hsource] at hinfo ⊢
      exact successors_congr hinfo
  · have hne : source ≠ b.current := fun h => hlt (h ▸ hcurrent)
    have hle := Nat.not_lt.1 hlt
    have hle' : (b.terminate t).function.blocks.size ≤ source.index := by
      have := blockCount_terminate b t
      unfold blockCount at this hle
      omega
    rw [if_neg hne]
    simp only [Function.successors, Function.block_of_le hle', Function.block_of_le hle]

/-- Ending a block that has no end yet adds its edges. -/
theorem EdgesAgree.terminate {b : Builder} {t : Terminator} (h : b.EdgesAgree)
    (hcurrent : b.current.index < b.blockCount) (hopen : b.isTerminated b.current = false)
    (htargets : ∀ c ∈ t.successors, c.index < b.blockCount) : (b.terminate t).EdgesAgree := by
  have hnone : (b.function.block b.current).terminator? = none := by
    simpa [isTerminated] using hopen
  intro source target
  rw [successors_terminate hcurrent]
  have hpreds : ((b.terminate t).preds target).count source = (b.preds target).count source +
      if source = b.current then t.successors.count target else 0 := by
    by_cases hlt : target.index < b.blockCount
    · rw [preds_terminate hlt, List.count_append, List.count_replicate]
      by_cases hsource : source = b.current
      · simp [hsource]
      · have hne : b.current ≠ source := fun e => hsource e.symm
        simp [hsource, hne]
    · have hnot : target ∉ t.successors := fun hmem => hlt (htargets target hmem)
      rw [preds_terminate_of_notMem hnot, List.count_eq_zero_of_not_mem hnot]
      simp
  rw [hpreds, ← h source target]
  by_cases hsource : source = b.current
  · subst hsource
    simp [Function.successors, hnone]
  · simp [hsource]

/-! ## Graphs without loose ends -/

/-- The current block exists, and edges come from blocks that exist. -/
structure Rooted (b : Builder) : Prop where
  current : b.current.index < b.blockCount
  preds : ∀ {c q}, q ∈ b.preds c → q.index < b.blockCount

namespace Rooted

variable {b b' : Builder}

/-- A graph with all these blocks, in which new edges come from the current one. -/
theorem grow (h : b.Rooted) (hcount : b.blockCount ≤ b'.blockCount)
    (hcurrent : b'.current.index < b'.blockCount)
    (hpreds : ∀ c, ∀ q ∈ b'.preds c, q ∈ b.preds c ∨ q = b.current) : b'.Rooted where
  current := hcurrent
  preds {c q} hq := by
    rcases hpreds c q hq with hq | rfl
    · exact Nat.lt_of_lt_of_le (h.preds hq) hcount
    · exact Nat.lt_of_lt_of_le h.current hcount

theorem newBlock (h : b.Rooted) (label : String) : (b.newBlock label).2.Rooted := by
  refine h.grow (by simp) ?_ fun c q hq => .inl ((frame_newBlock b label c).1 ▸ hq)
  rw [blockCount_newBlock]
  exact Nat.lt_succ_of_lt h.current

theorem setCurrent (h : b.Rooted) {c : Block} (hc : c.index < b.blockCount) :
    (b.setCurrent c).Rooted := h.grow (Nat.le_refl _) hc fun _ _ => .inl

theorem push (h : b.Rooted) (inst : Inst) (ty : Ty) : (b.push inst ty).2.Rooted :=
  h.grow (by simp) (by simpa using h.current) fun c _ hq => .inl ((frame_push b inst ty c).1 ▸ hq)

theorem phi (h : b.Rooted) (block : Block) (ty : Ty) : (b.phi block ty).2.Rooted :=
  h.grow (by simp) (by simpa using h.current) fun c _ hq => .inl (preds_phi b block ty c ▸ hq)

theorem terminate (h : b.Rooted) (t : Terminator) : (b.terminate t).Rooted :=
  h.grow (by simp) (by simpa using h.current) fun _ _ => mem_preds_terminate

theorem invoke (h : b.Rooted) (callee : String) (arguments : List Value) (result : Ty)
    (normal unwind : Block) : (b.invoke callee arguments result normal unwind).2.Rooted := by
  have hcalled : (b.newValue (.call callee arguments) result b.current).2.Rooted := ⟨h.current, h.preds⟩
  exact hcalled.terminate _

theorem addIncoming (h : b.Rooted) (phi : Value) (pred : Block) (v : Value) :
    (b.addIncoming phi pred v).Rooted := ⟨h.current, h.preds⟩

end Rooted

end Builder

end Abacus.Flow
