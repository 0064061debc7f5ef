import Abacus.Proofs.Faults.Blocks
import Abacus.Proofs.Variables.Growth

/-!
# Blocks that get all at once

A block is made, waits until an edge leads to it, is sealed then, and gets all that it has at once. Nothing
of it changes afterwards.

* `Builder.pushes`, `Builder.has_pushes` — instructions that are appended one after the other;
* `Draft.Proceeds` — what goes on with a draft;
* `Draft.finishBlock` — a block gets what belongs into it, and the blocks that it leads to are sealed;
* `Draft.Blank` — a block that nothing has been put into;
* `Blank.spared`, `Blank.reached`, `Blank.finished` — what becomes of it when a block is finished;
* `Draft.addBlocks` — new blocks.
-/

namespace Abacus.Flow

/-! ## Code that stands in a function -/

namespace Function

variable {f g : Function} {c : Block} {start first count : Nat} {code : List Inst} {t : Terminator}

theorem Has.grown (h : f.Has c start first code) (hgrown : f.Grown g)
    (hplain : ∀ inst ∈ code, inst.isPhi = false) : g.Has c start first code where
  listed i hi := hgrown.listed (h.listed i hi)
  inst i hi := by
    have hlt : first + i < f.values.size := Nat.lt_of_lt_of_le (Nat.add_lt_add_left hi _) h.values
    rw [hgrown.inst hlt ?_, h.inst i hi]
    intro incoming hphi
    have hnot := hplain _ (List.getElem_mem hi)
    rw [← h.inst i hi, hphi] at hnot
    cases hnot
  values := Nat.le_trans h.values hgrown.values

theorem Closed.grown (h : f.Closed c count t) (hgrown : f.Grown g) : g.Closed c count t := by
  obtain ⟨hterm, hinsts⟩ := hgrown.closed h.terminator
  exact ⟨hinsts ▸ h.count, hterm⟩

/-- An instruction and those that follow it. -/
theorem Has.cons {inst : Inst} (hlisted : (f.block c).insts[start]? = some ⟨first⟩)
    (hinst : f.inst ⟨first⟩ = inst) (h : f.Has c (start + 1) (first + 1) code) :
    f.Has c start first (inst :: code) where
  listed i hi := by
    cases i with
    | zero => exact hlisted
    | succ i =>
      have hrest := h.listed i (Nat.lt_of_succ_lt_succ hi)
      rwa [Nat.add_right_comm start, Nat.add_right_comm first] at hrest
  inst i hi := by
    cases i with
    | zero => exact hinst
    | succ i =>
      have hrest := h.inst i (Nat.lt_of_succ_lt_succ hi)
      rwa [Nat.add_right_comm first] at hrest
  values := by
    have hvalues := h.values
    rw [List.length_cons]
    omega

end Function

namespace Builder

variable {b : Builder} {c : Block}

/-- Instructions are appended to the current block. -/
def pushes (b : Builder) : List (Inst × Ty) → Builder
  | [] => b
  | (inst, ty) :: rest => (b.push inst ty).2.pushes rest

@[simp] theorem current_pushes (b : Builder) (code : List (Inst × Ty)) :
    (b.pushes code).current = b.current := by
  induction code generalizing b with
  | nil => rfl
  | cons inst rest ih => exact ih _

@[simp] theorem blockCount_pushes (b : Builder) (code : List (Inst × Ty)) :
    (b.pushes code).blockCount = b.blockCount := by
  induction code generalizing b with
  | nil => rfl
  | cons inst rest ih => exact (ih _).trans (blockCount_push ..)

@[simp] theorem valueCount_pushes (b : Builder) (code : List (Inst × Ty)) :
    (b.pushes code).valueCount = b.valueCount + code.length := by
  induction code generalizing b with
  | nil => rfl
  | cons inst rest ih =>
    rw [pushes, ih, valueCount_push, List.length_cons]
    omega

/-- Nothing but the instructions of the current block changes. -/
theorem info_pushes (b : Builder) (code : List (Inst × Ty)) (c : Block) :
    ∃ insts, (b.pushes code).info c = { b.info c with insts := insts } ∧
      (c ≠ b.current → insts = (b.info c).insts) ∧
      (c = b.current → c.index < b.blockCount → insts.size = (b.info c).insts.size + code.length) := by
  induction code generalizing b with
  | nil => exact ⟨(b.info c).insts, rfl, fun _ => rfl, fun _ _ => rfl⟩
  | cons inst rest ih =>
    obtain ⟨insts, hinfo, hother, hcurrent⟩ := ih (b.push inst.1 inst.2).2
    rw [info_push] at hinfo hother hcurrent
    refine ⟨insts, ?_, fun hne => ?_, fun heq hlt => ?_⟩
    · rw [pushes, hinfo]
      split <;> rfl
    · rw [hother hne, if_neg fun h => hne h.1]
    · rw [hcurrent heq ((blockCount_push ..).symm ▸ hlt), if_pos ⟨heq, hlt⟩, Array.size_push,
        List.length_cons]
      omega

/-- An open block stays open while instructions are appended. -/
theorem grown_pushes (b : Builder) (code : List (Inst × Ty))
    (hopen : (b.info b.current).terminator? = none) : b.function.Grown (b.pushes code).function := by
  induction code generalizing b with
  | nil => exact .refl _
  | cons inst rest ih =>
    refine (grown_push b inst.1 inst.2 hopen).trans (ih _ ?_)
    rw [current_push, info_push]
    split <;> exact hopen

/-- What has been appended stands behind what was there. -/
theorem has_pushes (b : Builder) (code : List (Inst × Ty)) (hcurrent : b.current.index < b.blockCount)
    (hopen : (b.info b.current).terminator? = none) (hplain : ∀ inst ∈ code, inst.1.isPhi = false) :
    (b.pushes code).function.Has b.current (b.info b.current).insts.size b.valueCount
      (code.map Prod.fst) := by
  induction code generalizing b with
  | nil => exact ⟨nofun, nofun, Nat.le_refl _⟩
  | cons inst rest ih =>
    let b' := (b.push inst.1 inst.2).2
    have hinfo : b'.info b.current =
        { b.info b.current with insts := (b.info b.current).insts.push ⟨b.valueCount⟩ } := by
      rw [info_push, if_pos ⟨rfl, hcurrent⟩]
    have hopen' : (b'.info b'.current).terminator? = none := by
      show (b'.info b.current).terminator? = none
      rw [hinfo]
      exact hopen
    have hrest := ih b' ((blockCount_push ..).symm ▸ hcurrent) hopen' fun i hi =>
      hplain i (List.mem_cons_of_mem _ hi)
    have hsize : (b'.info b.current).insts.size = (b.info b.current).insts.size + 1 := by
      rw [hinfo]
      exact Array.size_push _
    have hcount : b'.valueCount = b.valueCount + 1 := valueCount_push ..
    rw [show b'.current = b.current from rfl, hsize, hcount] at hrest
    have hgrown : b'.function.Grown (b.pushes (inst :: rest)).function := grown_pushes b' rest hopen'
    have hnew : (b'.valueInfo ⟨b.valueCount⟩).inst = inst.1 := by
      rw [valueInfo_push, if_pos rfl]
    refine .cons (hgrown.listed ?_) ?_ hrest
    · show (b'.info b.current).insts[_]? = _
      rw [hinfo]
      simp
    · have hlt : b.valueCount < b'.valueCount := by omega
      rw [hgrown.inst (v := ⟨b.valueCount⟩) hlt ?_]
      · exact hnew
      · intro incoming hphi
        have hnot := hplain inst List.mem_cons_self
        rw [← hnew, show (b'.valueInfo ⟨b.valueCount⟩).inst = _ from hphi] at hnot
        cases hnot

end Builder

end Abacus.Flow

namespace Abacus.Lowering

open Abacus.Flow (Value Block Ty Inst Terminator Builder BlockInfo)
open Drafting (on close)

namespace Draft

variable {d d' : Draft} {b c e q : Block} {code : List (Inst × Ty)} {t : Terminator} {source? : Option Block}

/-! ## What goes on -/

/-- What is done to a draft from now on. -/
def recording (d : Draft) : Recording := ⟨d, fun _ => [], fun _ _ _ => False⟩

/-- What is finished stays, and what is there stays well-founded. -/
structure Proceeds (d d' : Draft) : Prop where
  settled : d.Settled d'
  founded : d.Founded → d'.Founded

namespace Proceeds

theorem trans {d'' : Draft} (h : d.Proceeds d') (h' : d'.Proceeds d'') : d.Proceeds d'' :=
  ⟨h.settled.trans h'.settled, h'.founded ∘ h.founded⟩

theorem grown (h : d.Proceeds d') : d.builder.function.Grown d'.builder.function := h.settled.grown

theorem of_step {R : Recording} (op : Op) (hop : R.Careful op) : R.draft.Proceeds (R.step op).draft :=
  ⟨Recording.settled_step hop, fun h => Recording.founded_step h hop⟩

end Proceeds

/-- Another block can be made current. -/
theorem proceeds_setCurrent (hc : c.index < d.builder.blockCount) :
    d.Proceeds { d with builder := d.builder.setCurrent c } :=
  ⟨.of_builder (.refl _) fun _ _ hback => ⟨hback.2, rfl⟩,
    fun h => h.of_builder (Nat.le_refl _) hc fun _ _ => .inl⟩

/-! ## Sealing -/

/-- Sealing a block for which no phi waits does nothing else. -/
theorem on_sealBlock_idle (hopen : d.known.isSealed b = false)
    (hidle : ∀ p ∈ d.known.incomplete, p.block ≠ b) : on (Drafting.sealBlock b) d = (.ok (), close d b) := by
  have hnone : d.known.incompleteOf b = [] := by
    simpa [Variables.incompleteOf] using hidle
  have hsame : Drafting.release d b = d := by
    unfold Drafting.release
    rw [List.filter_eq_self.2 (by simpa using hidle)]
  rw [Drafting.on_sealBlock, if_neg (by simp [hopen]), hnone, hsame, List.reverse_nil,
    Drafting.on_fillAll_nil]

theorem builder_close (d : Draft) (b : Block) : (close d b).builder = d.builder := rfl

@[simp] theorem builder_closeAll (d : Draft) (blocks : List Block) :
    (blocks.foldl close d).builder = d.builder := by
  induction blocks generalizing d with
  | nil => rfl
  | cons b rest ih => exact ih _

@[simp] theorem incomplete_closeAll (d : Draft) (blocks : List Block) :
    (blocks.foldl close d).known.incomplete = d.known.incomplete := by
  induction blocks generalizing d with
  | nil => rfl
  | cons b rest ih => exact ih _

theorem isSealed_closeAll (d : Draft) (blocks : List Block) (c : Block) :
    (blocks.foldl close d).known.isSealed c = (decide (c ∈ blocks) || d.known.isSealed c) := by
  induction blocks generalizing d with
  | nil => simp
  | cons b rest ih =>
    rw [List.foldl_cons, ih, Drafting.isSealed_close]
    simp only [List.mem_cons, Bool.decide_or]
    cases decide (c = b) <;> simp

/-- Sealing takes nothing away. -/
theorem Proceeds.closeAll (h : d'.Proceeds d) (blocks : List Block)
    (hblocks : ∀ c ∈ blocks, c.index < d.builder.blockCount) : d'.Proceeds (blocks.foldl close d) := by
  induction blocks generalizing d with
  | nil => exact h
  | cons b rest ih =>
    refine ih (h.trans ⟨?_, fun hd => ⟨hd.current, hd.preds, hd.waiting, fun {c} hc => ?_⟩⟩)
      fun c hc => hblocks c (List.mem_cons_of_mem _ hc)
    · exact (Settled.refl d).of_known fun c hc =>
        (Drafting.isSealed_close d b c).trans (by rw [hc, Bool.or_true])
    · rw [Drafting.isSealed_close, Bool.or_eq_true, decide_eq_true_eq] at hc
      rcases hc with rfl | hc
      · exact hblocks c List.mem_cons_self
      · exact hd.sealed' hc

/-! ## Blocks that get all at once -/

/-- Instructions and the end are put into a block, and the blocks that it leads to are sealed. -/
def finishBlock (d : Draft) (c : Block) (code : List (Inst × Ty)) (t : Terminator) : Draft :=
  t.successors.foldl close { d with builder := ((d.builder.setCurrent c).pushes code).terminate t }

@[simp] theorem builder_finishBlock : (d.finishBlock c code t).builder =
    ((d.builder.setCurrent c).pushes code).terminate t := builder_closeAll ..

@[simp] theorem incomplete_finishBlock :
    (d.finishBlock c code t).known.incomplete = d.known.incomplete := incomplete_closeAll ..

theorem isSealed_finishBlock : (d.finishBlock c code t).known.isSealed e =
    (decide (e ∈ t.successors) || d.known.isSealed e) := isSealed_closeAll ..

@[simp] theorem blockCount_finishBlock :
    (d.finishBlock c code t).builder.blockCount = d.builder.blockCount := by
  simp

@[simp] theorem valueCount_finishBlock :
    (d.finishBlock c code t).builder.valueCount = d.builder.valueCount + code.length := by
  simp

/-- Other blocks get new edges at most. -/
theorem info_finishBlock (he : e.index < d.builder.blockCount) (hne : e ≠ c) :
    (d.finishBlock c code t).builder.info e = { d.builder.info e with
      preds := (d.builder.info e).preds ++ List.replicate (t.successors.count e) c } := by
  obtain ⟨insts, hinfo, hother, -⟩ := (d.builder.setCurrent c).info_pushes code e
  rw [hother hne] at hinfo
  rw [builder_finishBlock, Builder.info_terminate _ _ _ (by simpa using he), hinfo]
  simp [hne, Builder.info]

/-- What has been put into a block stands there. -/
theorem has_finishBlock (code : List (Inst × Ty)) (t : Terminator) (hc : c.index < d.builder.blockCount)
    (hopen : (d.builder.info c).terminator? = none) (hplain : ∀ inst ∈ code, inst.1.isPhi = false) :
    (d.finishBlock c code t).builder.function.Has c (d.builder.info c).insts.size d.builder.valueCount
        (code.map Prod.fst) ∧
      (d.finishBlock c code t).builder.function.Closed c ((d.builder.info c).insts.size + code.length) t := by
  have hhas := Builder.has_pushes (d.builder.setCurrent c) code hc hopen hplain
  obtain ⟨insts, hinfo, -, hsize⟩ := (d.builder.setCurrent c).info_pushes code c
  have hopen' : (((d.builder.setCurrent c).pushes code).info
      ((d.builder.setCurrent c).pushes code).current).terminator? = none := by
    rw [Builder.current_pushes, Builder.current_setCurrent, hinfo]
    exact hopen
  have hend : (d.finishBlock c code t).builder.info c = _ :=
    builder_finishBlock ▸ Builder.info_terminate _ t c (by simpa using hc)
  rw [hinfo] at hend
  refine ⟨builder_finishBlock ▸ hhas.grown (Builder.grown_terminate _ _ hopen') ?_, ?_, ?_⟩
  · simpa using hplain
  · show ((d.finishBlock c code t).builder.info c).insts.size = _
    rw [hend]
    exact hsize rfl hc
  · show ((d.finishBlock c code t).builder.info c).terminator? = _
    rw [hend]
    simp

/-- Instructions that are put into a block which has no end change nothing that has been finished. -/
theorem proceeds_pushes (hc : c.index < d.builder.blockCount)
    (hopen : (d.builder.info c).terminator? = none) :
    d.Proceeds { d with builder := (d.builder.setCurrent c).pushes code } := by
  have hpreds : ∀ e, ((d.builder.setCurrent c).pushes code).preds e = d.builder.preds e ∧
      (((d.builder.setCurrent c).pushes code).info e).phis = (d.builder.info e).phis := by
    intro e
    obtain ⟨insts, hinfo, -, -⟩ := (d.builder.setCurrent c).info_pushes code e
    constructor
    · show (((d.builder.setCurrent c).pushes code).info e).preds = _
      rw [hinfo]
      rfl
    · rw [hinfo]
      rfl
  have hcount : ((d.builder.setCurrent c).pushes code).blockCount = d.builder.blockCount :=
    Builder.blockCount_pushes ..
  have hsettled : d.Settled { d with builder := (d.builder.setCurrent c).pushes code } :=
    .of_builder (Builder.grown_pushes (d.builder.setCurrent c) code hopen) fun e q hback =>
      ⟨(hpreds e).1.trans hback.2, (hpreds e).2⟩
  refine ⟨hsettled, fun h => h.of_builder hcount.ge ?_ fun e q hq => .inl ((hpreds e).1 ▸ hq)⟩
  rw [Builder.current_pushes, hcount]
  exact hc

/-- Nor does the end of the block. -/
theorem proceeds_finishBlock (hc : c.index < d.builder.blockCount)
    (hopen : (d.builder.info c).terminator? = none)
    (htargets : ∀ e ∈ t.successors, e.index < d.builder.blockCount ∧ d.known.isSealed e = false) :
    d.Proceeds (d.finishBlock c code t) := by
  let pushed : Draft := { d with builder := (d.builder.setCurrent c).pushes code }
  have hopen' : pushed.builder.isTerminated pushed.builder.current = false := by
    obtain ⟨insts, hinfo, -, -⟩ := (d.builder.setCurrent c).info_pushes code c
    show (((d.builder.setCurrent c).pushes code).info
      ((d.builder.setCurrent c).pushes code).current).terminator?.isSome = false
    rw [Builder.current_pushes, Builder.current_setCurrent, hinfo]
    exact Option.isSome_eq_false_iff.2 (Option.isNone_iff_eq_none.2 hopen)
  have hended : pushed.Proceeds { pushed with builder := pushed.builder.terminate t } :=
    ⟨Recording.settled_terminate hopen' fun e he => (htargets e he).2,
      fun h => h.of_rooted (h.rooted.terminate t) (by simp)⟩
  -- The blocks that it leads to are sealed last, when the edges are there.
  refine ((proceeds_pushes hc hopen).trans hended).closeAll _ fun e he => ?_
  have hcount : (pushed.builder.terminate t).blockCount = d.builder.blockCount := by
    rw [Builder.blockCount_terminate]
    exact Builder.blockCount_pushes ..
  exact hcount.symm ▸ (htargets e he).1

/-! ## Blocks that wait -/

/-- A block that nothing has been put into. It is sealed as soon as an edge leads to it. -/
structure Blank (d : Draft) (c : Block) (source? : Option Block) : Prop where
  exists' : c.index < d.builder.blockCount
  info : ∃ label, d.builder.info c = { BlockInfo.fresh label with preds := source?.toList }
  isSealed : d.known.isSealed c = source?.isSome
  idle : ∀ p ∈ d.known.incomplete, p.block ≠ c

namespace Blank

theorem open' (h : d.Blank c source?) : (d.builder.info c).terminator? = none := by
  obtain ⟨label, hinfo⟩ := h.info
  rw [hinfo]
  rfl

/-- The block that leads to it is its predecessor. -/
theorem stepsBack (h : d.Blank c (some q)) : d.StepsBack c q ∧ (d.builder.info c).phis = [] := by
  obtain ⟨label, hinfo⟩ := h.info
  refine ⟨⟨h.isSealed, ?_⟩, by rw [hinfo]; rfl⟩
  show (d.builder.info c).preds = [q]
  rw [hinfo]
  rfl

/-- It stays so, and gets no phis. -/
theorem kept (h : d.Blank c (some q)) (hd : d.Proceeds d') :
    d'.StepsBack c q ∧ (d'.builder.info c).phis = [] := by
  obtain ⟨hback, hphis⟩ := hd.settled.back h.stepsBack.1
  exact ⟨hback, hphis.trans h.stepsBack.2⟩

/-- A block that waits can be sealed, whatever has become of the graph. -/
theorem on_sealBlock (h : d.Blank c none) (builder : Builder) :
    on (Drafting.sealBlock c) { d with builder := builder } =
      (.ok (), close { d with builder := builder } c) :=
  on_sealBlock_idle h.isSealed h.idle

/-- So can a second one. -/
theorem on_sealBlock_second (h : d.Blank c none) (hne : c ≠ b) (builder : Builder) :
    on (Drafting.sealBlock c) (close { d with builder := builder } b) =
      (.ok (), close (close { d with builder := builder } b) c) := by
  refine on_sealBlock_idle ?_ h.idle
  rw [Drafting.isSealed_close, decide_eq_false hne, Bool.false_or]
  exact h.isSealed

/-- Another block is finished that does not lead here. -/
theorem spared (h : d.Blank e source?) (hne : e ≠ c) (hnot : e ∉ t.successors) :
    (d.finishBlock c code t).Blank e source? where
  exists' := blockCount_finishBlock.symm ▸ h.exists'
  info := by
    obtain ⟨label, hinfo⟩ := h.info
    refine ⟨label, ?_⟩
    rw [info_finishBlock h.exists' hne, hinfo, List.count_eq_zero_of_not_mem hnot]
    simp
  isSealed := by
    rw [isSealed_finishBlock, h.isSealed]
    simp [hnot]
  idle := incomplete_finishBlock.symm ▸ h.idle

/-- Another block is finished that leads here. -/
theorem reached (h : d.Blank e none) (hne : e ≠ c) (hone : t.successors.count e = 1) :
    (d.finishBlock c code t).Blank e (some c) where
  exists' := blockCount_finishBlock.symm ▸ h.exists'
  info := by
    obtain ⟨label, hinfo⟩ := h.info
    refine ⟨label, ?_⟩
    rw [info_finishBlock h.exists' hne, hinfo, hone]
    rfl
  isSealed := by
    have hmem : e ∈ t.successors := List.count_pos_iff.1 (by omega)
    rw [isSealed_finishBlock]
    simp [hmem]
  idle := incomplete_finishBlock.symm ▸ h.idle

/-- The block itself is finished. -/
theorem finished (h : d.Blank c source?) (code : List (Inst × Ty)) (t : Terminator)
    (hplain : ∀ inst ∈ code, inst.1.isPhi = false)
    (htargets : ∀ e ∈ t.successors, d.Blank e none) : d.Proceeds (d.finishBlock c code t) ∧
      (d.finishBlock c code t).builder.function.Has c 0 d.builder.valueCount (code.map Prod.fst) ∧
      (d.finishBlock c code t).builder.function.Closed c code.length t := by
  obtain ⟨label, hinfo⟩ := h.info
  have hhas := has_finishBlock code t h.exists' h.open' hplain
  have hempty : ({ BlockInfo.fresh label with preds := source?.toList } : BlockInfo).insts.size = 0 := rfl
  rw [hinfo, hempty, Nat.zero_add] at hhas
  exact ⟨proceeds_finishBlock h.exists' h.open' fun e he =>
    ⟨(htargets e he).exists', (htargets e he).isSealed⟩, hhas⟩

end Blank

/-- Empty blocks are added. -/
def addBlocks (d : Draft) (labels : List String) : Draft :=
  { d with builder := labels.foldl (fun b label => (b.newBlock label).2) d.builder }

theorem addBlocks_cons (d : Draft) (label : String) (labels : List String) :
    d.addBlocks (label :: labels) =
      Draft.addBlocks { d with builder := (d.builder.newBlock label).2 } labels := rfl

@[simp] theorem blockCount_addBlocks (d : Draft) (labels : List String) :
    (d.addBlocks labels).builder.blockCount = d.builder.blockCount + labels.length := by
  induction labels generalizing d with
  | nil => rfl
  | cons label rest ih =>
    rw [addBlocks_cons, ih, Builder.blockCount_newBlock, List.length_cons]
    omega

theorem proceeds_addBlocks (d : Draft) (labels : List String) : d.Proceeds (d.addBlocks labels) := by
  induction labels generalizing d with
  | nil => exact ⟨.refl d, id⟩
  | cons label rest ih =>
    exact (Proceeds.of_step (R := d.recording) (.newBlock label) trivial).trans (ih _)

/-- All else stays. -/
theorem frame_addBlocks (d : Draft) (labels : List String) :
    (d.addBlocks labels).known = d.known ∧
      (d.addBlocks labels).builder.current = d.builder.current ∧
      (d.addBlocks labels).builder.valueCount = d.builder.valueCount ∧
      ∀ c : Block, c.index < d.builder.blockCount →
        (d.addBlocks labels).builder.info c = d.builder.info c := by
  induction labels generalizing d with
  | nil => exact ⟨rfl, rfl, rfl, fun _ _ => rfl⟩
  | cons label rest ih =>
    obtain ⟨hknown, hcurrent, hvalues, hinfo⟩ := ih { d with builder := (d.builder.newBlock label).2 }
    refine ⟨hknown, hcurrent, hvalues, fun c hc => ?_⟩
    rw [addBlocks_cons, hinfo c (by simp; omega), Builder.info_newBlock, if_neg (Nat.ne_of_lt hc)]

/-- The blocks that have been added hold nothing. -/
theorem info_addBlocks (d : Draft) {labels : List String} {i : Nat} (hi : i < labels.length) :
    ∃ label, (d.addBlocks labels).builder.info ⟨d.builder.blockCount + i⟩ = BlockInfo.fresh label := by
  induction labels generalizing d i with
  | nil => cases hi
  | cons label rest ih =>
    rw [addBlocks_cons]
    cases i with
    | zero =>
      refine ⟨label, ?_⟩
      rw [(frame_addBlocks _ rest).2.2.2 _ (by simp), Builder.info_newBlock, if_pos (Nat.add_zero _)]
    | succ i =>
      have hrest := ih { d with builder := (d.builder.newBlock label).2 } (Nat.lt_of_succ_lt_succ hi)
      rwa [Builder.blockCount_newBlock, Nat.add_right_comm, Nat.add_assoc] at hrest

/-- They wait for edges. -/
theorem blank_addBlocks (h : d.Founded) {labels : List String} {i : Nat} (hi : i < labels.length) :
    (d.addBlocks labels).Blank ⟨d.builder.blockCount + i⟩ none := by
  obtain ⟨hknown, -⟩ := d.frame_addBlocks labels
  constructor
  case exists' =>
    rw [blockCount_addBlocks]
    exact Nat.add_lt_add_left hi _
  case info => exact d.info_addBlocks hi
  case isSealed =>
    rw [hknown, Option.isSome_none]
    refine Bool.eq_false_iff.2 fun hsealed => ?_
    have hlt : d.builder.blockCount + i < d.builder.blockCount := h.sealed' hsealed
    omega
  case idle =>
    rw [hknown]
    rintro p hp he
    have hlt := h.waiting p hp
    rw [he] at hlt
    exact absurd hlt (by simp)

end Draft

end Abacus.Lowering
