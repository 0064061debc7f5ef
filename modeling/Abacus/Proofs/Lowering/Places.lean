import Abacus.Proofs.Lowering.Steps

/-!
# Where instructions stand

What has been placed in a plan stands there in every plan that extends it. This module says it in
the terms in which control goes through a block: which instruction comes next behind what has
happened there (`Plan.Places`), where the block ends (`Plan.Ends`), and that a block can be come to
from one block only (`Plan.OneWay`), so that it has no phis.
-/

namespace Abacus.Lowering

open Abacus.Flow (Value Block Ty Inst Terminator Builder ValueInfo)

/-- The instructions among the events. -/
abbrev instsOf (events : List Event) : List Value := events.filterMap Event.inst?

namespace Plan

variable {σ σ' : Plan} {b c q : Block} {done : List Event} {v : Value} {inst : Inst} {ty : Ty}

/-- Behind the events `done` of a block comes an instruction. -/
structure Places (σ : Plan) (b : Block) (done : List Event) (v : Value) (inst : Inst) (ty : Ty) :
    Prop where
  script : done ++ [.inst v] <+: σ.record.script b
  insts : (σ.builder.info b).insts[(instsOf done).length]? = some v
  info : σ.builder.valueInfo v = ⟨ty, inst, b⟩
  lt : v.index < σ.builder.valueCount
  owner : σ.known.owner? v = none

theorem Places.mono (h : σ.Places b done v inst ty) (e : Extends σ σ') :
    σ'.Places b done v inst ty where
  script := by
    obtain ⟨later, hlater⟩ := e.script b
    exact h.script.trans ⟨later, hlater.symm⟩
  insts := by
    obtain ⟨later, hlater⟩ := e.placed b
    have hold := h.insts
    rw [← Array.getElem?_toList] at hold ⊢
    rw [← hlater, List.getElem?_append_left (List.getElem?_eq_some_iff.1 hold).1]
    exact hold
  info := (e.info h.lt h.owner).trans h.info
  lt := Nat.lt_of_lt_of_le h.lt e.valueCount
  owner := (e.owner h.lt).trans h.owner

/-- A new value has no owner. -/
theorem Sound.owner_next (hσ : σ.Sound) : σ.known.owner? ⟨σ.builder.valueCount⟩ = none := by
  cases howner : σ.known.owner? ⟨σ.builder.valueCount⟩ with
  | none => rfl
  | some x => exact absurd (hσ.record.coherent.owned howner).1 (Nat.lt_irrefl _)

/-- In an open block the instructions are those among its events. -/
theorem Sound.insts_open (hσ : σ.Sound) (hopen : σ.terminator? σ.current = none) :
    instsOf (σ.record.script σ.current) = (σ.builder.info σ.current).insts.toList := by
  have hinsts := hσ.insts σ.current
  rw [hopen] at hinsts
  simpa [endCall?] using hinsts

theorem Sound.places_emit (hσ : σ.Sound) (hopen : σ.terminator? σ.current = none) (inst : Inst)
    (ty : Ty) : (σ.emit inst ty).Places σ.current (σ.record.script σ.current)
      ⟨σ.builder.valueCount⟩ inst ty where
  script := ⟨[], by rw [List.append_nil, script_emit, Recording.happen_self]⟩
  insts := by
    rw [(info_emit σ inst ty _).2.2.2, if_pos ⟨rfl, hσ.record.current⟩, hσ.insts_open hopen]
    simp
  info := by rw [valueInfo_emit, if_pos rfl]
  lt := by
    rw [show (σ.emit inst ty).builder.valueCount = _ from Builder.valueCount_push ..]
    exact Nat.lt_succ_self _
  owner := hσ.owner_next

/-- The instruction of a call with a handler stands at the end of its block only. -/
theorem info_invoke_mono {callee : String} {arguments : List Value} {result : Ty}
    {normal unwind : Block} (hσ : σ.Sound)
    (e : Extends (σ.invoke callee arguments result normal unwind) σ') :
    σ'.builder.valueInfo ⟨σ.builder.valueCount⟩ = ⟨result, .call callee arguments, σ.current⟩ := by
  rw [e.info (by rw [valueCount_invoke]; exact Nat.lt_succ_self _) hσ.owner_next, valueInfo_invoke,
    if_pos rfl]

/-- There is one edge to the block, and no other one will be made. -/
structure OneWay (σ : Plan) (c q : Block) : Prop where
  isSealed : σ.known.isSealed c = true
  preds : σ.builder.preds c = [q]

theorem OneWay.mono (h : σ.OneWay c q) (e : Extends σ σ') : σ'.OneWay c q :=
  ⟨e.isSealed h.isSealed, (e.preds h.isSealed).trans h.preds⟩

theorem Awaits.oneWay (h : σ.Awaits c true [q]) : σ.OneWay c q := ⟨h.isSealed, h.preds⟩

/-- Where only one edge leads, nothing has to be merged. -/
theorem OneWay.phis (h : σ.OneWay c q) (hσ : σ.Sound) : (σ.builder.info c).phis = [] :=
  hσ.plain h.isSealed h.preds

/-- In a block that waits nothing has happened. -/
theorem Awaits.script {closed : Bool} {sources : List Block} (hσ : σ.Sound)
    (h : σ.Awaits c closed sources) : σ.record.script c = [] := (hσ.begun h.spine).1

theorem Awaits.script_enter {closed : Bool} {sources : List Block} (h : σ.Awaits c closed sources)
    (hσ : σ.Sound) (s : List Block) :
    (σ.enter c s).record.script (σ.enter c s).current = [] := by
  show σ.record.script c = []
  exact h.script hσ

/-- The events of the current block when an instruction has been added. -/
theorem script_emit_self (inst : Inst) (ty : Ty) : (σ.emit inst ty).record.script σ.current =
    σ.record.script σ.current ++ [.inst ⟨σ.builder.valueCount⟩] := by
  rw [script_emit, Recording.happen_self]

theorem ends_terminate (hσ : σ.Sound) (t : Terminator) (hcurrent : σ.current = b)
    (hscript : σ.record.script b = done) : (σ.terminate t).Ends b done t :=
  ⟨hscript, by rw [terminator?_terminate hσ, if_pos hcurrent.symm]⟩

/-- What has an end stays as it is when another block is entered, and from then on. -/
theorem Ends.left {t : Terminator} {s : List Block} (h : σ.Ends b done t) (hne : b ≠ c)
    (e : Extends (σ.enter c s) σ') : σ'.Ends b done t :=
  ((spares_enter σ s hne).ends h).mono hne e

end Plan

end Abacus.Lowering
