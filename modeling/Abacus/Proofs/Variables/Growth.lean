import Abacus.Proofs.Variables.Phis

/-!
# What is finished stays

A function grows while it is built: blocks, values and instructions are added. What has been placed stays
where it is, a block that has its end gets nothing more, and a sealed block with one predecessor gets no
phis. This holds for every caller that puts nothing behind the end of a block.

* `Function.Grown` — what a function keeps while it grows;
* `Draft.Settled` — the same, and what drafts keep of the phis of sealed blocks;
* `Recording.Careful`, `Recording.settled_run` — what is asked of callers, and what a run of theirs keeps;
* `Draft.Founded`, `Recording.founded_run` — edges come from blocks that exist, and phis wait in such.
-/

namespace Abacus.Flow

/-! ## Functions -/

/-- What has been placed in `f` stands in `g` as well, and what has been ended has ended so. -/
structure Function.Grown (f g : Function) : Prop where
  values : f.values.size ≤ g.values.size
  inst : ∀ {v}, v.index < f.values.size → (∀ incoming, f.inst v ≠ .phi incoming) → g.inst v = f.inst v
  listed : ∀ {c : Block} {i : Nat} {v}, (f.block c).insts[i]? = some v → (g.block c).insts[i]? = some v
  closed : ∀ {c t}, (f.block c).terminator? = some t →
    (g.block c).terminator? = some t ∧ (g.block c).insts = (f.block c).insts

namespace Function.Grown

variable {f g h : Function}

theorem refl (f : Function) : f.Grown f :=
  ⟨Nat.le_refl _, fun _ _ => rfl, id, fun hc => ⟨hc, rfl⟩⟩

theorem trans (h₁ : f.Grown g) (h₂ : g.Grown h) : f.Grown h where
  values := Nat.le_trans h₁.values h₂.values
  inst hv hphi := by
    have hsame := h₁.inst hv hphi
    rw [h₂.inst (Nat.lt_of_lt_of_le hv h₁.values) (hsame ▸ hphi), hsame]
  listed hi := h₂.listed (h₁.listed hi)
  closed hc := by
    obtain ⟨hterm, hinsts⟩ := h₁.closed hc
    obtain ⟨hterm', hinsts'⟩ := h₂.closed hterm
    exact ⟨hterm', hinsts'.trans hinsts⟩

end Function.Grown

namespace Builder

variable {b b' : Builder}

/-- A builder that leaves the instructions of all blocks alone, and takes no end away. -/
theorem grown_of_info (hvalues : b.valueCount ≤ b'.valueCount)
    (hinst : ∀ v, v.index < b.valueCount → (∀ incoming, (b.valueInfo v).inst ≠ .phi incoming) →
      (b'.valueInfo v).inst = (b.valueInfo v).inst)
    (hinfo : ∀ c, (b'.info c).insts = (b.info c).insts ∧
      ∀ t, (b.info c).terminator? = some t → (b'.info c).terminator? = some t) :
    b.function.Grown b'.function where
  values := hvalues
  inst hv hphi := hinst _ hv hphi
  listed {c i v} hi := by
    show (b'.info c).insts[i]? = some v
    rw [(hinfo c).1]
    exact hi
  closed {c t} hc := ⟨(hinfo c).2 t hc, (hinfo c).1⟩

theorem grown_newBlock (b : Builder) (label : String) : b.function.Grown (b.newBlock label).2.function := by
  refine grown_of_info (Nat.le_refl _) (fun _ _ _ => rfl) fun c => ?_
  rw [info_newBlock]
  split
  · next hc =>
    rw [show b.info c = default from Function.block_of_le (Nat.le_of_eq hc.symm)]
    exact ⟨rfl, nofun⟩
  · exact ⟨rfl, fun _ => id⟩

theorem grown_newValue (b : Builder) (inst : Inst) (ty : Ty) (block : Block) :
    b.function.Grown (b.newValue inst ty block).2.function := by
  refine grown_of_info (by simp [newValue, valueCount]) (fun v hv _ => ?_) fun c => ⟨rfl, fun _ => id⟩
  rw [valueInfo_newValue, if_neg (Nat.ne_of_lt hv)]

theorem terminator?_of_open {c : Block} (h : b.isTerminated c = false) : (b.info c).terminator? = none :=
  Option.isNone_iff_eq_none.1 (Option.isSome_eq_false_iff.1 h)

/-- An instruction is put into the current block, which has no end yet. -/
theorem grown_push (b : Builder) (inst : Inst) (ty : Ty) (hopen : (b.info b.current).terminator? = none) :
    b.function.Grown (b.push inst ty).2.function where
  values := by
    show b.valueCount ≤ (b.push inst ty).2.valueCount
    simp
  inst {v} hv _ := by
    have hne : v.index ≠ b.valueCount := Nat.ne_of_lt hv
    show ((b.push inst ty).2.valueInfo v).inst = (b.valueInfo v).inst
    rw [valueInfo_push, if_neg hne]
  listed {c i v} hi := by
    show ((b.push inst ty).2.info c).insts[i]? = some v
    rw [info_push]
    split
    · have hlt := (Array.getElem?_eq_some_iff.1 hi).1
      rw [Array.getElem?_push_lt hlt, ← Array.getElem?_eq_getElem hlt]
      exact hi
    · exact hi
  closed {c t} hc := by
    show ((b.push inst ty).2.info c).terminator? = some t ∧ ((b.push inst ty).2.info c).insts = _
    rw [info_push]
    split
    · next hcurrent =>
      rw [hcurrent.1] at hc
      cases hopen.symm.trans hc
    · exact ⟨hc, rfl⟩

theorem grown_phi (b : Builder) (block : Block) (ty : Ty) :
    b.function.Grown (b.phi block ty).2.function := by
  refine grown_of_info (by simp) (fun v hv _ => ?_) fun c => ?_
  · rw [valueInfo_phi, if_neg (Nat.ne_of_lt hv)]
  · rw [info_phi]
    split <;> exact ⟨rfl, fun _ => id⟩

/-- Operands are for phis. -/
theorem grown_addIncoming (b : Builder) (phi : Value) (pred : Block) (u : Value) :
    b.function.Grown (b.addIncoming phi pred u).function := by
  refine grown_of_info (by simp) (fun v _ hphi => ?_) fun c => ⟨rfl, fun _ => id⟩
  rw [valueInfo_addIncoming]
  split
  · unfold addOperand
    split
    · next incoming hinst => exact absurd hinst (hphi incoming)
    · rfl
  · rfl

/-- The current block gets its end. -/
theorem grown_terminate (b : Builder) (t : Terminator) (hopen : (b.info b.current).terminator? = none) :
    b.function.Grown (b.terminate t).function := by
  refine grown_of_info (Nat.le_of_eq (valueCount_terminate b t).symm)
    (fun v _ _ => by rw [valueInfo_terminate]) fun c => ?_
  by_cases hc : c.index < b.blockCount
  · rw [info_terminate b t c hc]
    refine ⟨rfl, fun u hu => ?_⟩
    dsimp only
    split
    · next hcurrent =>
      rw [hcurrent] at hu
      cases hopen.symm.trans hu
    · exact hu
  · rw [show b.info c = default from Function.block_of_le (Nat.not_lt.1 hc),
      show (b.terminate t).info c = default from Function.block_of_le
        ((blockCount_terminate b t).trans_le (Nat.not_lt.1 hc))]
    exact ⟨rfl, fun _ => id⟩

end Builder

end Abacus.Flow

namespace Abacus.Lowering

open Abacus.Flow (Value Block Ty Inst Terminator Builder Function)

/-! ## Drafts -/

/-- What a draft keeps: what is finished of its function, and the phis of the sealed blocks that have one
predecessor. -/
structure Draft.Settled (d₀ d : Draft) : Prop where
  grown : d₀.builder.function.Grown d.builder.function
  back : ∀ {c q}, d₀.StepsBack c q →
    d.StepsBack c q ∧ (d.builder.info c).phis = (d₀.builder.info c).phis

namespace Draft.Settled

variable {d₀ d d' : Draft}

theorem refl (d : Draft) : d.Settled d := ⟨.refl _, fun h => ⟨h, rfl⟩⟩

theorem trans (h : d₀.Settled d) (h' : d.Settled d') : d₀.Settled d' where
  grown := h.grown.trans h'.grown
  back hback := by
    obtain ⟨hback₁, hphis₁⟩ := h.back hback
    obtain ⟨hback₂, hphis₂⟩ := h'.back hback₁
    exact ⟨hback₂, hphis₂.trans hphis₁⟩

/-- What is known of variables may change, apart from the blocks that are sealed. -/
theorem of_known (h : d₀.Settled d) {known : Variables}
    (hsealed : ∀ c, d.known.isSealed c = true → known.isSealed c = true) :
    d₀.Settled { d with known := known } where
  grown := h.grown
  back hback := by
    obtain ⟨⟨hc, hpreds⟩, hphis⟩ := h.back hback
    exact ⟨⟨hsealed _ hc, hpreds⟩, hphis⟩

/-- So may the graph, if sealed blocks with one predecessor keep their edges and phis. -/
theorem of_builder {builder : Builder} (hgrown : d.builder.function.Grown builder.function)
    (hinfo : ∀ c q, d.StepsBack c q →
      builder.preds c = [q] ∧ (builder.info c).phis = (d.builder.info c).phis) :
    d.Settled { d with builder := builder } where
  grown := hgrown
  back hback := ⟨⟨hback.1, (hinfo _ _ hback).1⟩, (hinfo _ _ hback).2⟩

/-- A phi stands where there is not just one predecessor. -/
theorem settle (h : d₀.Settled d) {x : SymbolId} {b : Block} {ty : Ty} {waiting : List OpenPhi}
    {blocks : List Block} (hb : ∀ q, ¬ d.StepsBack b q) :
    d₀.Settled (d.settle x b ty waiting blocks) := by
  have hphi : d.Settled { d with builder := (d.builder.phi b ty).2 } := by
    refine of_builder (Builder.grown_phi ..) fun c q hback => ?_
    have hne : c ≠ b := by
      rintro rfl
      exact hb q hback
    have hsame : (d.builder.phi b ty).2.info c = d.builder.info c := by
      rw [Builder.info_phi, if_neg fun hc => hne hc.1]
    exact ⟨(Builder.preds_phi ..).trans hback.2, congrArg Flow.BlockInfo.phis hsame⟩
  exact (h.trans hphi).of_known fun c hc => (isSealed_settle c).trans hc

end Draft.Settled

namespace Drafting

variable {d₀ d : Draft}

/-- Searches keep what is finished. -/
theorem settled_upkeep (d₀ : Draft) : Upkeep (fun _ => True) (fun _ => True) d₀.Settled where
  back _ _ _ := trivial
  bindAll h _ := h.of_known fun c hc => by
    rw [Variables.isSealed, (Variables.frame_writeAll _ _ _ _).2.1]
    exact hc
  settle h _ _ _ hb _ _ := h.settle hb
  made _ _ := trivial
  place _ := trivial
  addIncoming h _ := h.trans (.of_builder (Builder.grown_addIncoming ..) fun _ _ hback => ⟨hback.2, rfl⟩)

theorem settled_read (x : SymbolId) (b : Block) (d : Draft) : d.Settled ((read x b).on d).2 :=
  (settled_upkeep d).read (.refl d) x trivial

theorem settled_sealBlock (b : Block) (d : Draft) : d.Settled ((sealBlock b).on d).2 := by
  refine (settled_upkeep d).sealBlock (.refl d) ((Draft.Settled.refl d).of_known fun _ => id)
    (fun _ _ => trivial) (fun _ => id) fun d' h => h.of_known fun c hc => ?_
  show (close d' b).known.isSealed c = true
  rw [isSealed_close, hc, Bool.or_true]

end Drafting

/-! ## Runs -/

namespace Recording

variable {R : Recording}

/-- What is asked of callers: they go to blocks that exist, and seal only such. They put nothing behind the
end of a block, lead to no sealed block, and make no phi in a sealed block with one predecessor. -/
def Careful (R : Recording) : Op → Prop
  | .push .. => R.draft.builder.isTerminated R.draft.builder.current = false
  | .terminate t => R.draft.builder.isTerminated R.draft.builder.current = false ∧
    ∀ c ∈ t.successors, R.draft.known.isSealed c = false
  | .invoke _ _ _ normal unwind => R.draft.builder.isTerminated R.draft.builder.current = false ∧
    ∀ c ∈ [normal, unwind], R.draft.known.isSealed c = false
  | .phi b _ => ∀ q, ¬ R.draft.StepsBack b q
  | .setCurrent b | .read _ b | .sealBlock b => b.index < R.draft.builder.blockCount
  | .newBlock _ | .addIncoming .. | .declare .. | .write .. => True

/-- The current block gets its end. -/
theorem settled_terminate {d : Draft} {t : Terminator}
    (hopen : d.builder.isTerminated d.builder.current = false)
    (htargets : ∀ c ∈ t.successors, d.known.isSealed c = false) :
    d.Settled { d with builder := d.builder.terminate t } := by
  refine .of_builder (Builder.grown_terminate _ _ (Builder.terminator?_of_open hopen))
    fun c q hback => ⟨?_, Builder.phis_terminate _ t c⟩
  rw [Builder.preds_terminate_of_notMem, hback.2]
  intro hmem
  have hsealed := hback.1
  rw [htargets c hmem] at hsealed
  cases hsealed

theorem settled_step {op : Op} (hop : R.Careful op) : R.draft.Settled (R.step op).draft := by
  cases op with
  | newBlock label =>
    refine .of_builder (Builder.grown_newBlock ..) fun c q hback => ?_
    obtain ⟨hpreds, hphis⟩ := R.draft.builder.frame_newBlock label c
    exact ⟨hpreds.trans hback.2, hphis⟩
  | setCurrent c => exact .of_builder (.refl _) fun _ _ hback => ⟨hback.2, rfl⟩
  | push inst ty =>
    refine .of_builder (Builder.grown_push _ _ _ (Builder.terminator?_of_open hop)) fun c q hback => ?_
    obtain ⟨hpreds, hphis⟩ := R.draft.builder.frame_push inst ty c
    exact ⟨hpreds.trans hback.2, hphis⟩
  | terminate t => exact settled_terminate hop.1 hop.2
  | invoke callee arguments result normal unwind =>
    let called := (R.draft.builder.newValue (.call callee arguments) result R.draft.builder.current).2
    have hcall : R.draft.Settled { R.draft with builder := called } :=
      .of_builder (Builder.grown_newValue ..) fun _ _ hback => ⟨hback.2, rfl⟩
    exact hcall.trans (settled_terminate (d := { R.draft with builder := called }) hop.1 hop.2)
  | phi c ty =>
    refine .of_builder (Builder.grown_phi ..) fun e q hback => ?_
    have hne : e ≠ c := by
      rintro rfl
      exact hop q hback
    have hsame : (R.draft.builder.phi c ty).2.info e = R.draft.builder.info e := by
      rw [Builder.info_phi, if_neg fun he => hne he.1]
    exact ⟨(Builder.preds_phi ..).trans hback.2, congrArg Flow.BlockInfo.phis hsame⟩
  | addIncoming phi pred v =>
    exact .of_builder (Builder.grown_addIncoming ..) fun _ _ hback => ⟨hback.2, rfl⟩
  | declare y ty => exact (Draft.Settled.refl R.draft).of_known fun _ => id
  | write y c v => exact (Draft.Settled.refl R.draft).of_known fun _ => id
  | read y c =>
    rw [draft_read]
    exact Drafting.settled_read y c R.draft
  | sealBlock c =>
    rw [draft_sealBlock]
    exact Drafting.settled_sealBlock c R.draft

/-- A run of careful callers keeps what has been finished before. -/
theorem settled_run {ops : List Op} (hops : Keeps Careful R ops) : R.draft.Settled (R.run ops).draft := by
  induction ops generalizing R with
  | nil => exact .refl _
  | cons op rest ih => exact (settled_step hops.1).trans (ih hops.2)

end Recording

/-! ## What is there -/

/-- The current block exists, edges come from blocks that exist, phis wait for such, and such are sealed. -/
structure Draft.Founded (d : Draft) : Prop where
  current : d.builder.current.index < d.builder.blockCount
  preds : ∀ {c q}, q ∈ d.builder.preds c → q.index < d.builder.blockCount
  waiting : ∀ p ∈ d.known.incomplete, p.block.index < d.builder.blockCount
  sealed' : ∀ {c}, d.known.isSealed c = true → c.index < d.builder.blockCount

namespace Draft.Founded

variable {d : Draft} {builder : Builder}

theorem rooted (h : d.Founded) : d.builder.Rooted := ⟨h.current, h.preds⟩

/-- A graph with all these blocks. -/
theorem of_rooted (h : d.Founded) (hrooted : builder.Rooted)
    (hcount : d.builder.blockCount ≤ builder.blockCount) :
    Draft.Founded { d with builder := builder } where
  current := hrooted.current
  preds := hrooted.preds
  waiting p hp := Nat.lt_of_lt_of_le (h.waiting p hp) hcount
  sealed' hc := Nat.lt_of_lt_of_le (h.sealed' hc) hcount

/-- A graph with all these blocks, in which new edges come from the current one. -/
theorem of_builder (h : d.Founded) (hcount : d.builder.blockCount ≤ builder.blockCount)
    (hcurrent : builder.current.index < builder.blockCount)
    (hpreds : ∀ c, ∀ q ∈ builder.preds c, q ∈ d.builder.preds c ∨ q = d.builder.current) :
    Draft.Founded { d with builder := builder } :=
  h.of_rooted (h.rooted.grow hcount hcurrent hpreds) hcount

end Draft.Founded

namespace Drafting

/-- Searches go through blocks that exist, and make phis there. -/
theorem founded_upkeep (n : Nat) : Upkeep (fun c => c.index < n) (fun p => p.block.index < n)
    fun d => d.Founded ∧ d.builder.blockCount = n where
  back h _ hq := h.2 ▸ h.1.preds hq
  bindAll {d x blocks v} h _ :=
    ⟨⟨h.1.current, h.1.preds, fun p hp => h.1.waiting p (by rwa [Draft.incomplete_bindAll] at hp),
      fun {c} hc => h.1.sealed' (by rwa [Draft.isSealed_bindAll] at hc)⟩, h.2⟩
  settle {d x b ty waiting blocks} h _ _ hb _ _ hwaiting := by
    obtain ⟨hd, hcount⟩ := h
    have hcount' : (d.settle x b ty waiting blocks).builder.blockCount = d.builder.blockCount :=
      Draft.blockCount_settle
    refine ⟨⟨?_, fun {c q} hq => ?_, fun p hp => ?_, fun {c} hc => ?_⟩, hcount'.trans hcount⟩ <;>
      rw [hcount']
    · exact hd.current
    · rw [Draft.preds_settle] at hq
      exact hd.preds hq
    · rw [Draft.incomplete_settle] at hp
      rcases List.mem_append.1 hp with hp | hp
      · exact hd.waiting p hp
      · rw [hwaiting p hp, hcount]
        exact hb
    · rw [Draft.isSealed_settle] at hc
      exact hd.sealed' hc
  made _ hb := hb
  place := id
  addIncoming h _ := ⟨⟨h.1.current, h.1.preds, h.1.waiting, h.1.sealed'⟩, h.2⟩

end Drafting

namespace Recording

variable {R : Recording}

theorem founded_start (name : String) (params : List Ty) (result : Ty) :
    (start name params result).draft.Founded := by
  constructor
  case current => simp [start, Builder.start, Builder.blockCount, Function.entry]
  case preds =>
    intro c q hq
    rw [(frame_start name params result c).1] at hq
    cases hq
  case waiting => exact fun p hp => absurd hp List.not_mem_nil
  case sealed' =>
    intro c hc
    change (∅ : Std.TreeSet Block).contains c = true at hc
    rw [Std.TreeSet.contains_emptyc] at hc
    cases hc

theorem founded_step (h : R.draft.Founded) {op : Op} (hop : R.Careful op) : (R.step op).draft.Founded := by
  cases op with
  | newBlock label => exact h.of_rooted (h.rooted.newBlock label) (by simp)
  | setCurrent c => exact h.of_rooted (h.rooted.setCurrent hop) (Nat.le_refl _)
  | push inst ty => exact h.of_rooted (h.rooted.push inst ty) (by simp)
  | terminate t => exact h.of_rooted (h.rooted.terminate t) (by simp)
  | invoke callee arguments result normal unwind =>
    exact h.of_rooted (h.rooted.invoke callee arguments result normal unwind)
      (Builder.blockCount_invoke ..).ge
  | phi c ty => exact h.of_rooted (h.rooted.phi c ty) (by simp)
  | addIncoming phi pred v =>
    exact h.of_rooted (h.rooted.addIncoming phi pred v) (Nat.le_refl _)
  | declare y ty => exact ⟨h.current, h.preds, h.waiting, h.sealed'⟩
  | write y c v => exact ⟨h.current, h.preds, h.waiting, h.sealed'⟩
  | read y c =>
    rw [draft_read]
    exact ((Drafting.founded_upkeep _).read ⟨h, rfl⟩ y hop).1
  | sealBlock c =>
    have hpending : ∀ p ∈ R.draft.known.incompleteOf c, p.block.index < R.draft.builder.blockCount :=
      fun p hp => h.waiting p (List.mem_of_mem_filter hp)
    rw [draft_sealBlock]
    refine (Drafting.founded_upkeep R.draft.builder.blockCount).sealBlock h ⟨⟨h.current, h.preds,
      fun p hp => h.waiting p (List.mem_of_mem_filter hp), h.sealed'⟩, rfl⟩ hpending (fun _ hd => hd.1) ?_
    -- Only the block itself is sealed now that has not been sealed before.
    rintro d' ⟨hd, hcount⟩
    refine ⟨hd.current, hd.preds, hd.waiting, fun {e} he => ?_⟩
    rw [Drafting.isSealed_close, Bool.or_eq_true, decide_eq_true_eq] at he
    rcases he with rfl | he
    · exact hcount.symm ▸ hop
    · exact hd.sealed' he

theorem founded_run (h : R.draft.Founded) {ops : List Op} (hops : Keeps Careful R ops) :
    (R.run ops).draft.Founded := by
  induction ops generalizing R with
  | nil => exact h
  | cons op rest ih => exact ih (founded_step h hops.1) hops.2

end Recording

end Abacus.Lowering
