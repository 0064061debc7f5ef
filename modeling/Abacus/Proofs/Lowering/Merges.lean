import Abacus.Proofs.Meaning.Functions
import Abacus.Proofs.Variables.Phis

/-!
# Where ways meet

When a block is sealed, all edges into it are there. Lowering seals a block as soon as it can, so for
each block it is known where in the lowering this happens and which edges lead there: one edge, or two
where a condition or a loop brings two ways together, or none behind a value that is given back. A phi is
made only where a sealed block does not have exactly one edge, or where a block is not sealed yet.

* `Plan.SealsOnly` — which blocks are sealed between two plans;
* `Plan.Shape`, `Plan.Seals` — which edges lead to the blocks that are sealed;
* `Values.seals`, `Statements.seals`, `Made.seals` — all parts of lowering keep to it;
* `PhisAtMerges`, `phis_at_merges` — where the phis of the functions of a unit stand.
-/

namespace Abacus.Lowering

open Abacus.Flow (Value Block Ty Inst Terminator Builder Function)

/-! ## Blocks that are sealed -/

/-- Sealing a block seals no other one. -/
theorem Drafting.isSealed_of_sealBlock {b c : Block} {d d' : Draft}
    (h : (sealBlock b).on d = (.ok (), d')) (hc : d'.known.isSealed c = true) :
    d.known.isSealed c = true ∨ c = b := by
  rw [on_sealBlock] at h
  split at h
  · cases h
  · have hfill := (steady_habit.fillAll (d.known.incompleteOf b).reverse (release d b)).2
    split at h
    · next d₁ hd₁ =>
      cases h
      rw [hd₁] at hfill
      rw [isSealed_close, Bool.or_eq_true_iff, decide_eq_true_iff, Variables.isSealed, hfill] at hc
      exact hc.symm
    · cases h

namespace Plan

variable {config : FaultConfig} {symbols symbols' : SymbolTable} {σ σ₁ σ₂ σ' : Plan} {b c q : Block}
  {blocks blocks' : List Block} {merges : Bool}

/-- No block has been sealed between the plans but some of these. -/
def SealsOnly (blocks : List Block) (σ σ' : Plan) : Prop :=
  ∀ c, σ'.known.isSealed c = true → σ.known.isSealed c = true ∨ c ∈ blocks

theorem sealsOnly_sealed {d : Draft}
    (h : (Drafting.sealBlock b).on σ.record.draft = (.ok (), d)) :
    SealsOnly [b] σ (σ.sealed b d) :=
  fun _ hc => (Drafting.isSealed_of_sealBlock h hc).imp_right List.mem_singleton.2

theorem sealsOnly_read {x : SymbolId} {v : Value} {d : Draft}
    (h : (Drafting.read x σ.current).on σ.record.draft = (.ok v, d)) :
    SealsOnly [] σ (σ.read x v d) := by
  intro c hc
  have hsealed := (Drafting.steady_habit.read x σ.current σ.record.draft).2
  rw [h] at hsealed
  refine .inl ?_
  rw [Variables.isSealed, ← hsealed]
  exact hc

theorem SealsOnly.trans (h₁ : SealsOnly blocks σ σ₁) (h₂ : SealsOnly blocks' σ₁ σ₂) :
    SealsOnly (blocks ++ blocks') σ σ₂ := by
  intro c hc
  rcases h₂ c hc with hc | hc
  · exact (h₁ c hc).imp_right (List.mem_append_left _)
  · exact .inr (List.mem_append_right _ hc)

/-- What is known about variables stays when instructions, blocks and ends of blocks are made. -/
@[simp] theorem known_emit (σ : Plan) (inst : Inst) (ty : Ty) : (σ.emit inst ty).known = σ.known := rfl

@[simp] theorem known_newBlocks (σ : Plan) (labels : List String) :
    (σ.newBlocks labels).known = σ.known := by
  induction labels generalizing σ with
  | nil => rfl
  | cons label rest ih => exact ih (σ.newBlock label)

@[simp] theorem known_enter (σ : Plan) (c : Block) (s : List Block) : (σ.enter c s).known = σ.known := rfl

@[simp] theorem known_terminate (σ : Plan) (t : Terminator) : (σ.terminate t).known = σ.known := rfl

@[simp] theorem known_invoke (σ : Plan) (callee : String) (arguments : List Value) (result : Ty)
    (normal unwind : Block) : (σ.invoke callee arguments result normal unwind).known = σ.known := rfl

@[simp] theorem isSealed_write (σ : Plan) (x : SymbolId) (v : Value) :
    (σ.write x v).known.isSealed = σ.known.isSealed := rfl

/-- What is done without sealing a block counts for nothing. -/
theorem SealsOnly.between (h : SealsOnly blocks σ₁ σ₂) (hstart : σ₁.known.isSealed = σ.known.isSealed)
    (hend : σ'.known.isSealed = σ₂.known.isSealed) : SealsOnly blocks σ σ' := by
  unfold SealsOnly
  rw [hend, ← hstart]
  exact h

theorem SealsBoth.sealsOnly {first second : Block} (h : SealsBoth σ first second σ') :
    SealsOnly [first, second] σ σ' := by
  obtain ⟨h₁, h₂⟩ := h
  exact (sealsOnly_sealed h₁).trans (sealsOnly_sealed h₂)

/-! ## Edges into sealed blocks -/

/-- The labels of the blocks in which two ways meet. -/
def mergeLabels : List String := ["if.join", "for.header"]

/-- From where edges lead to a sealed block with a label. Ways may meet only if there is a condition or
a loop. -/
inductive Shape (merges : Bool) : String → List Block → Prop
  | dead : Shape merges "after_return" []
  | plain {label q} : Shape merges label [q]
  | merge {label p q} : merges = true → label ∈ mergeLabels → Shape merges label [p, q]

/-- The edges into the block suit its label. -/
def Shaped (merges : Bool) (σ : Plan) (c : Block) : Prop :=
  Shape merges (σ.builder.info c).label (σ.builder.preds c)

theorem OneWay.shaped (h : σ.OneWay c q) : Shaped merges σ c := by
  unfold Shaped
  rw [h.preds]
  exact .plain

/-- A sealed block keeps its edges and its label. -/
theorem Shaped.mono (h : Shaped merges σ c) (hσ : σ.Sound) (hc : σ.known.isSealed c = true)
    (e : Extends σ σ') : Shaped merges σ' c := by
  unfold Shaped
  rw [e.label (hσ.record.coherent.exists_of_sealed hc), e.preds hc]
  exact h

/-- The edges into all blocks that have been sealed between the plans suit their labels. -/
def Seals (merges : Bool) (σ σ' : Plan) : Prop :=
  ∀ c, σ'.known.isSealed c = true → σ.known.isSealed c = true ∨ Shaped merges σ' c

theorem SealsOnly.seals (h : SealsOnly blocks σ σ') (hblocks : ∀ c ∈ blocks, Shaped merges σ' c) :
    Seals merges σ σ' := fun c hc => (h c hc).imp_right (hblocks c)

theorem SealsOnly.none (h : SealsOnly [] σ σ') : Seals merges σ σ' := h.seals nofun

theorem seals_rfl (σ : Plan) : Seals merges σ σ := fun _ => .inl

/-- What has been done before without sealing a block counts for nothing. -/
theorem Seals.starting (h : Seals merges σ₁ σ') (hstart : σ₁.known.isSealed = σ.known.isSealed) :
    Seals merges σ σ' := by
  unfold Seals
  rw [← hstart]
  exact h

theorem Seals.trans (h₁ : Seals merges σ σ₁) (h₂ : Seals merges σ₁ σ₂) (hσ₁ : σ₁.Sound)
    (e : Extends σ₁ σ₂) : Seals merges σ σ₂ := by
  intro c hc
  rcases h₂ c hc with hc₁ | hc
  · exact (h₁ c hc₁).imp_right fun hshaped => hshaped.mono hσ₁ hc₁ e
  · exact .inr hc

/-! ## Parts of lowering -/

theorem Coerced.seals {v v' : Value} {ty : Ty} (h : Coerced σ v ty v' σ') : Seals merges σ σ' := by
  cases h <;> exact fun _ => .inl

theorem Tested.seals {v v' : Value} (h : Tested σ v v' σ') : Seals merges σ σ' := by
  cases h with
  | int _ h₁ => exact h₁ ▸ fun _ => .inl
  | float _ h₁ => exact h₁ ▸ fun _ => .inl

theorem Negated.seals {v v' : Value} (h : Negated σ v v' σ') : Seals merges σ σ' := by
  cases h with
  | int _ h₁ => exact h₁ ▸ fun _ => .inl
  | float _ h₁ => exact h₁ ▸ fun _ => .inl

theorem Divided.sealsOnly {lhs rhs quotient : Value} (h : Divided config σ lhs rhs quotient σ') :
    SealsOnly [σ.block 0, σ.block 1] σ σ' := by
  obtain ⟨test, compare, fork, raise⟩ := h
  exact fork.sealsOnly.between (by simp [compare, test]) (by simp [raise])

/-- A division opens two blocks, each with one edge. -/
theorem Divided.seals {lhs rhs quotient : Value} (h : Divided config σ lhs rhs quotient σ')
    (hσ : σ.Ready) (hlhs : σ.Has σ.current lhs) (hrhs : σ.Has σ.current rhs) : Seals merges σ σ' := by
  obtain ⟨-, -, hat⟩ := h.stages hσ hlhs hrhs
  obtain ⟨_, _, _, hat, -⟩ := hat (.rfl' σ')
  have hcurrent : σ'.current = σ.block 1 := by
    cases h
    rfl
  refine h.sealsOnly.seals fun c hc => ?_
  rcases List.mem_pair.1 hc with rfl | rfl
  · exact hat.toRaise.shaped
  · exact (hcurrent ▸ hat.toOkay).shaped

theorem Combined.seals {op : InfixOp} {lhs rhs v : Value} {divides : Bool}
    (h : Combined config σ op lhs rhs divides v σ') (hσ : σ.Ready) (hlhs : σ.Has σ.current lhs)
    (hrhs : σ.Has σ.current rhs) : Seals merges σ σ' := by
  obtain ⟨-, hleft, hright, hresult⟩ := h
  have h₁ := hleft.gives hσ hlhs
  have h₂ := hright.gives h₁.ready (h₁.keeps hσ hrhs)
  have h₃ := hresult.gives h₂.ready (h₂.keeps h₁.ready h₁.has) h₂.has
  have hoperands : Seals merges σ _ :=
    hleft.seals.trans hright.seals h₁.ready.sound h₂.advance.since.extends'
  refine hoperands.trans ?_ h₂.ready.sound h₃.advance.since.extends'
  cases hresult with
  | floatCompare _ _ h => exact h ▸ fun _ => .inl
  | intCompare _ _ h => exact h ▸ fun _ => .inl
  | floatArith => exact fun _ => .inl
  | divide _ _ hdivided => exact hdivided.seals h₂.ready (h₂.keeps h₁.ready h₁.has) h₂.has
  | intArith => exact fun _ => .inl

theorem Landed.sealsOnly {sites : InvokeSites} {s : List Block} {pad selector : Value}
    (h : Landed config σ sites s pad selector σ') :
    SealsOnly [sites.caught, sites.faulted] σ σ' := by
  obtain ⟨pad, selector, typeId, compare, fork⟩ := h
  exact fork.sealsOnly.between (by simp [compare, typeId, selector, pad]) rfl

theorem Caught.known {sites : InvokeSites} {s : List Block} {pad : Value}
    (h : Caught σ sites s pad σ') : σ'.known = σ.known := by
  obtain ⟨code, report, done, zero⟩ := h
  simp [zero, done, report, code]

theorem Refused.sealsOnly {sites : InvokeSites} {s : List Block} {pad selector : Value}
    (h : Refused σ sites s pad selector σ') :
    SealsOnly [sites.unexpected, sites.cleanup] σ σ' := by
  obtain ⟨zero, compare, fork, stop⟩ := h
  exact fork.sealsOnly.between (by simp [compare, zero]) (by simp [stop])

theorem Invoked.sealsOnly {callee : String} {arguments : List Value} {v : Value}
    (h : Invoked config σ callee arguments v σ') : SealsOnly
      [σ.block 0, σ.block 1, σ.block 2, σ.block 3, σ.block 4, σ.block 5] σ σ' := by
  obtain ⟨fork, landed, caught, refused⟩ := h
  have hrefused : SealsOnly [σ.block 4, σ.block 5] _ _ :=
    refused.sealsOnly.between (congrArg Variables.isSealed caught.known) rfl
  exact ((fork.sealsOnly.trans landed.sealsOnly).trans hrefused).between (by simp) rfl

/-- A call with a handler opens six blocks, each with one edge. -/
theorem Called.seals {name : String} {arguments : List Value} {handled : Bool} {v : Value}
    (h : Called config σ name arguments handled v σ') (hσ : σ.Ready)
    (harguments : ∀ u ∈ arguments, σ.Has σ.current u) : Seals merges σ σ' := by
  cases h with
  | plain => exact fun _ => .inl
  | handled h =>
    obtain ⟨-, -, -, hat⟩ := h.stages hσ harguments
    obtain ⟨_, _, _, _, _, _, _, _, hat⟩ := hat (.rfl' σ')
    refine h.sealsOnly.seals fun c hc => ?_
    simp only [List.mem_cons, List.not_mem_nil, or_false] at hc
    rcases hc with rfl | rfl | rfl | rfl | rfl | rfl
    · exact hat.toNormal.shaped
    · exact hat.toLanding.shaped
    · exact hat.landing.toCaught.shaped
    · exact hat.landing.toFaulted.shaped
    · exact hat.toUnexpected.shaped
    · exact hat.toCleanup.shaped

/-- No ways meet in expressions. -/
theorem Values.seals {part : ValuePart} {b : Bool} {vs : List Value}
    (h : Values config symbols part σ b vs σ') (hσ : σ.Ready) : Seals merges σ σ' := by
  induction h with
  | integer | floating | pi => exact fun _ => .inl
  | ident _ hread => exact (sealsOnly_read hread).none
  | infixOp hleft hright hcombined ih₁ ih₂ =>
      obtain ⟨hready₁, hadvance₁, hl⟩ := hleft.gives hσ
      obtain ⟨hready₂, hadvance₂, hr⟩ := hright.gives hready₁
      have hl₂ := hadvance₂.has hready₁.sound (hl _ (List.mem_singleton_self _))
      have h := hcombined.gives hready₂ hl₂ (hr _ (by simp))
      exact ((ih₁ hσ).trans (ih₂ hready₁) hready₁.sound hadvance₂.since.extends').trans
        (hcombined.seals hready₂ hl₂ (hr _ (by simp))) hready₂.sound h.advance.since.extends'
  | negate hvalue hnegated ih =>
      obtain ⟨hready, -, hv⟩ := hvalue.gives hσ
      have h := hnegated.gives hready (hv _ (by simp))
      exact (ih hσ).trans hnegated.seals hready.sound h.advance.since.extends'
  | call _ _ harguments hcalled ih =>
      obtain ⟨hready, -, hvs⟩ := harguments.gives hσ
      exact (ih hσ).trans (hcalled.seals hready hvs) hready.sound
        (hcalled.gives hready hvs).advance.since.extends'
  | nil => exact seals_rfl _
  | cons hfirst hcoerced hrest ih₁ ih₂ =>
      obtain ⟨hready₁, -, hv⟩ := hfirst.gives hσ
      have h := hcoerced.gives hready₁ (hv _ (by simp))
      obtain ⟨-, hadvance₂, -⟩ := hrest.gives h.ready
      exact ((ih₁ hσ).trans hcoerced.seals hready₁.sound h.advance.since.extends').trans (ih₂ h.ready)
        h.ready.sound hadvance₂.since.extends'

/-! ## Statements -/

/-- Nothing leads to the block behind a value that is given back. -/
theorem Returned.seals {v : Value} (h : Returned σ v σ') (hσ : σ.Ready) (hv : σ.Has σ.current v) :
    Seals merges σ σ' := by
  obtain ⟨-, -, -, hpreds, hlabel⟩ := h.stages hσ hv
  have hdead : Shaped merges σ' σ'.current := by
    unfold Shaped
    rw [hpreds, hlabel]
    exact .dead
  obtain @⟨σ₁, dead, d, next, enter, hsealed⟩ := h
  have honly : SealsOnly [dead] σ (σ₁.sealed dead d) :=
    (sealsOnly_sealed hsealed).between (by rw [enter]; rfl) rfl
  have hcurrent : (σ₁.sealed dead d).current = dead := by
    have hspares := (Drafting.spares_sealBlock dead σ₁.record.draft).current
    rw [hsealed] at hspares
    exact hspares.trans (by rw [enter]; rfl)
  refine honly.seals fun c hc => ?_
  rw [List.mem_singleton.1 hc, ← hcurrent]
  exact hdead

/-- Each body of a condition starts in a block with one edge. -/
theorem Split.seals {test : Value} (h : Split σ test σ') (hσ : σ.Ready) (htest : σ.Has σ.current test) :
    Seals merges σ σ' := by
  obtain ⟨-, -, hat⟩ := h.stages hσ htest
  have hat := hat (.rfl' σ')
  obtain ⟨fork⟩ := h
  refine (fork.sealsOnly.between (by simp) rfl).seals fun c hc => ?_
  rcases List.mem_pair.1 hc with rfl | rfl
  · exact hat.toFirst.shaped
  · exact hat.toSecond.shaped

/-- The two bodies of a condition meet behind it. -/
theorem Joined.seals {σ₃ : Plan} (h : Joined σ σ₃ σ') (hsecond : SecondBody σ σ₁ σ₂) (hready : σ₃.Ready)
    (hadvance : Advance σ₂ σ₃) (hlabel : (σ₂.builder.info (σ.block 2)).label = "if.join") :
    Seals true σ₃ σ' := by
  obtain ⟨hsealed⟩ := h
  have hjoin := hsecond.join.since hsecond.ready.sound hadvance.since
  have hjumped := hready.jump hjoin
  have htarget := hjumped.target hjoin
  obtain ⟨-, e, hjoined, -⟩ := htarget.sealed hjumped.sound hsealed
  refine ((sealsOnly_sealed hsealed).between rfl rfl).seals fun c hc => ?_
  rw [List.mem_singleton.1 hc]
  have hlabel' := ((hadvance.since.extends'.trans hjumped.extends').trans e).label hsecond.join.exists'
  exact (congrArg₂ (Shape true) (hlabel'.trans hlabel) hjoined.preds).mpr (.merge rfl (by decide))

/-- A counter is bound without a block being sealed. -/
theorem Seals.countFrom {x : SymbolId} (h : Seals merges σ σ₁) (hσ₁ : σ₁.Ready) :
    Seals merges σ (σ₁.countFrom x) :=
  h.trans (fun _ => .inl) hσ₁.sound (advance_countFrom hσ₁ x).2.since.extends'

/-- The body of a loop starts in a block with one edge. -/
theorem LoopHead.seals {x : SymbolId} {limit : Value} (h : LoopHead σ x limit σ') (hσ : σ.Ready)
    (hlimit : σ.Has σ.current limit) : Seals merges σ σ' := by
  obtain ⟨-, -, hat⟩ := h.stages hσ hlimit
  obtain ⟨_, _, hat, -⟩ := hat (.rfl' σ')
  obtain ⟨enter, hread, compare, hsealed⟩ := h
  have honly := ((sealsOnly_read hread).trans
    ((sealsOnly_sealed hsealed).between (by simp [compare]) rfl)).between (σ := σ) (by simp [enter]) rfl
  refine honly.seals fun c hc => ?_
  rw [List.mem_singleton.1 hc]
  exact hat.toBody.shaped

/-- The way back meets the way into the header of a loop. -/
theorem LoopTail.seals {x : SymbolId} {σ₀ : Plan} (h : LoopTail σ x σ₁ σ') (hbody : LoopBody σ σ₀)
    (hσ : σ.Ready) (hready : σ₁.Ready) (hadvance : Advance σ₀ σ₁) : Seals true σ₁ σ' := by
  obtain ⟨-, -, e, -, -, hat⟩ := h.stages hbody hσ hready hadvance
  obtain ⟨_, _, _, hat, -⟩ := hat (.rfl' σ')
  obtain ⟨q, hheader⟩ := hat.toHeader
  have hlabel := (hadvance.since.extends'.trans e).label
    (Nat.lt_of_le_of_lt (Nat.le_add_right _ 2) hbody.bodyEnd.exists')
  obtain ⟨sealEnd, enter, hread, one, next, back, sealHeader, sealExit⟩ := h
  -- Three blocks are sealed: the end of the body, then the header, and the exit behind it.
  have honly := (((sealsOnly_sealed sealEnd).trans
    ((sealsOnly_read hread).between (by simp [enter]) rfl)).trans
    ((sealsOnly_sealed sealHeader).between (by simp [back, next, one]) rfl)).trans (sealsOnly_sealed sealExit)
  refine (honly.between rfl rfl).seals fun c hc => ?_
  simp only [List.mem_append, List.mem_singleton, List.not_mem_nil, or_false] at hc
  rcases hc with (rfl | rfl) | rfl
  · exact hat.toLast.shaped
  · exact (congrArg₂ (Shape true) (hlabel.trans hbody.label) hheader).mpr (.merge rfl (by decide))
  · exact hat.toExit.shaped

/-- Is the item a condition or a loop? -/
def branches : Tree → Bool
  | .node _ (.ifElse ..) | .node _ (.forLoop ..) => true
  | _ => false

/-- Is there a condition or a loop among what is lowered? -/
def StatementPart.branches : StatementPart → Bool
  | .one t => Plan.branches t
  | .all ts => ts.any Plan.branches

/-- Ways meet only where there is a condition or a loop. -/
theorem Statements.seals {part : StatementPart} {b : Bool} {r : Option Value}
    (h : Statements config part symbols σ b r symbols' σ') (hσ : σ.Ready)
    (hmerges : part.branches = true → merges = true) : Seals merges σ σ' := by
  induction h with
  | letVar hvalue _ =>
      have h := hvalue.givesOne hσ
      exact (hvalue.seals hσ).trans (fun _ => .inl) h.ready.sound
        (advance_introduce h.ready _ _ h.has).2.since.extends'
  | setVar hvalue _ _ hcoerced =>
      have h := hvalue.givesOne hσ
      have h' := hcoerced.gives h.ready h.has
      exact ((hvalue.seals hσ).trans hcoerced.seals h.ready.sound h'.advance.since.extends').trans
        (fun _ => .inl) h'.ready.sound (advance_write h'.ready _ _).since.extends'
  | giveBack hvalue hcoerced hreturned =>
      have h := hvalue.givesOne hσ
      have h' := hcoerced.gives h.ready h.has
      exact ((hvalue.seals hσ).trans hcoerced.seals h.ready.sound h'.advance.since.extends').trans
        (hreturned.seals h'.ready h'.has) h'.ready.sound
        (hreturned.advance h'.ready h'.has).2.since.extends'
  | ifElse hvalue htested hsplit hthen _ helse _ hjoined ih₁ ih₂ =>
      obtain rfl : merges = true := hmerges rfl
      have h := hvalue.givesOne hσ
      have h' := htested.gives h.ready h.has
      have hfirst := hsplit.firstBody h'.ready h'.has
      obtain ⟨hready₁, hadvance₁, -⟩ := hthen.advance hfirst.ready
      have hsecond := hfirst.secondBody h'.ready hready₁ hadvance₁
      obtain ⟨hready₂, hadvance₂, -⟩ := helse.advance hsecond.ready
      have hspine : ∀ a ∈ _, a ∈ _ := fun a ha =>
        hadvance₁.spine a (hfirst.spine ▸ List.mem_cons_of_mem _ ha)
      obtain ⟨-, -, ejoin, -⟩ := hsecond.joined hready₁.sound hspine hready₂ hadvance₂ hjoined
      have ethen := hfirst.since.extends'.trans hadvance₁.since.extends'
      have eelse := hsecond.extends'.trans hadvance₂.since.extends'
      have hlabel := ((hadvance₁.since.extends'.trans hsecond.extends').label
        hfirst.join.exists').trans hfirst.label
      have hcondition : Seals true _ _ :=
        (hvalue.seals hσ).trans htested.seals h.ready.sound h'.advance.since.extends'
      have hfirst' := (hsplit.seals h'.ready h'.has).trans (ih₁ hfirst.ready fun _ => rfl)
        hfirst.ready.sound hadvance₁.since.extends'
      -- The second block has been sealed with the first one.
      have hsecond' : Seals true _ _ := Seals.trans (fun _ => .inl) (ih₂ hsecond.ready fun _ => rfl)
        hsecond.ready.sound hadvance₂.since.extends'
      have hjoin := hjoined.seals hsecond hready₂ hadvance₂ hlabel
      exact (hcondition.trans hfirst' h'.ready.sound ethen).trans
        (hsecond'.trans hjoin hready₂.sound ejoin) hready₁.sound (eelse.trans ejoin)
  | forLoop hvalue hcoerced _ hhead hbody _ htail _ ih =>
      obtain rfl : merges = true := hmerges rfl
      have h := hvalue.givesOne hσ
      have h' := hcoerced.gives h.ready h.has
      obtain ⟨hready₁, hadvance₁⟩ := advance_countFrom h'.ready _
      have hlimit := hadvance₁.has h'.ready.sound h'.has
      have hloop := hhead.loopBody hready₁ hlimit
      obtain ⟨hready₂, hadvance₂, -⟩ := hbody.advance hloop.ready
      obtain ⟨-, -, etail, -⟩ := htail.stages hloop hready₁ hready₂ hadvance₂
      have hbound : Seals true _ _ :=
        (hvalue.seals hσ).trans hcoerced.seals h.ready.sound h'.advance.since.extends'
      have hbody' := (hhead.seals hready₁ hlimit).trans (ih hloop.ready fun _ => rfl) hloop.ready.sound
        hadvance₂.since.extends'
      have htail' := htail.seals hloop hready₁ hready₂ hadvance₂
      exact ((hbound.countFrom h'.ready).trans hbody' hready₁.sound
        (hloop.since.extends'.trans hadvance₂.since.extends')).trans htail' hready₂.sound etail
  | expression hvalue => exact hvalue.seals hσ
  | nil => exact seals_rfl _
  | cons hfirst hrest ih₁ ih₂ =>
      obtain ⟨hready₁, -, -⟩ := hfirst.advance hσ
      obtain ⟨-, hadvance₂, -⟩ := hrest.advance hready₁
      simp only [StatementPart.branches, List.any_cons, Bool.or_eq_true] at hmerges
      exact (ih₁ hσ fun hb => hmerges (.inl hb)).trans (ih₂ hready₁ fun hb => hmerges (.inr hb))
        hready₁.sound hadvance₂.since.extends'

/-! ## Functions -/

/-- Is there a condition or a loop among the statements of the function? -/
def Routine.branches : Routine → Bool
  | definition _ _ body => body.items.any Plan.branches
  | statements _ items => items.any Plan.branches

theorem Parameters.isSealed {names : List String} {i : Nat}
    (h : Parameters names i symbols σ symbols' σ') : σ'.known.isSealed = σ.known.isSealed := by
  induction h with
  | nil => rfl
  | cons _ _ ih => exact ih

theorem Resulting.seals {r r' : Option Value} (h : Resulting σ r r' σ') : Seals merges σ σ' := by
  cases h with
  | none => exact seals_rfl _
  | some hcoerced => exact hcoerced.seals

theorem Ended.seals {r : Option Value} (h : Ended σ r σ') : Seals merges σ σ' := by
  cases h <;> exact fun _ => .inl

/-- At the start only the entry is sealed. -/
theorem Opens.entry_of_sealed {name : String} {arity : Nat} (h : Opens name arity σ)
    (hc : σ.known.isSealed c = true) : c = Function.entry := by
  obtain ⟨hsealed⟩ := h
  rcases sealsOnly_sealed hsealed c hc with hstart | hmem
  · cases hstart
  · exact List.mem_singleton.1 hmem

section

variable {routine : Routine} {b : Bool} {r : Option Value}

theorem Body.seals (h : Body config symbols routine b r symbols' σ') :
    ∃ σ, Opens routine.name routine.arity σ ∧ Seals routine.branches σ σ' := by
  cases h with
  | definition hopens hparams hbody _ =>
    have hbegun := hopens.begun
    obtain ⟨hready, -⟩ := hparams.advance hbegun.ready fun k hk => by
      rw [hbegun.current]
      exact hbegun.params k (by omega)
    exact ⟨_, hopens, (hbody.seals hready id).starting hparams.isSealed⟩
  | statements hopens hitems _ hresult =>
    have hready := hopens.begun.ready
    obtain ⟨hready₁, -, hr⟩ := hitems.advance hready
    exact ⟨_, hopens, (hitems.seals hready id).trans hresult.seals hready₁.sound
      (hresult.gives hready₁ hr).2.1.since.extends'⟩

/-- In a function that has been lowered, the edges into all blocks but the entry suit their labels. -/
theorem Made.shaped (h : Made config symbols routine b symbols' σ')
    (hc : c.index < σ'.builder.blockCount) : c = Function.entry ∨ Shaped routine.branches σ' c := by
  have hsealed := (h.closed.2 c hc).1
  obtain ⟨hbody, hended⟩ := h
  obtain ⟨-, -, hready, -, hr⟩ := hbody.advance
  obtain ⟨σ₀, hopens, hseals⟩ := hbody.seals
  exact (hseals.trans hended.seals hready.sound (hended.since hready hr).2.extends' c hsealed).imp_left
    hopens.entry_of_sealed

end

end Plan

/-! ## Phis -/

/-- A phi has an operand for each of two ways that meet in an `if.join` or a `for.header`, or it stands
where control does not come to, behind a value that is given back, and has none. -/
inductive PhiPlaced (f : Function) (merges : Bool) (b : Block) (phi : Value) : Prop
  | merge {p q v w} : merges = true → (f.block b).label ∈ Plan.mergeLabels → f.preds b = [p, q] →
      f.inst phi = .phi [(p, v), (q, w)] → PhiPlaced f merges b phi
  | dead : (f.block b).label = "after_return" → (∀ p, ¬ f.Path p b) → f.preds b = [] →
      f.inst phi = .phi [] → PhiPlaced f merges b phi

/-- The phis of a function stand where ways meet, and those of one block belong to different variables. The
predecessors of its blocks are where edges come from. -/
structure PhisAtMerges (d : Draft) (merges : Bool) : Prop where
  edges : d.builder.EdgesAgree
  entry : (d.builder.function.block Function.entry).phis = []
  oneWay : ∀ b q, d.builder.function.preds b = [q] → (d.builder.function.block b).phis = []
  placed : ∀ b, ∀ phi ∈ (d.builder.function.block b).phis, PhiPlaced d.builder.function merges b phi
  owned : ∀ b, ∀ phi ∈ (d.builder.function.block b).phis, ∃ x, d.known.owner? phi = some x
  single : ∀ b, ((d.builder.function.block b).phis.map d.known.owner?).Nodup

namespace PhisAtMerges

/-- Where nothing branches, control comes to no phi. -/
theorem flat {d : Draft} (h : PhisAtMerges d false) {b : Block} {p : List Block}
    (hp : d.builder.function.Path p b) : (d.builder.function.block b).phis = [] := by
  refine List.eq_nil_iff_forall_not_mem.2 fun phi hphi => ?_
  cases h.placed b phi hphi with
  | merge hmerges => cases hmerges
  | dead _ hnone => exact hnone p hp

end PhisAtMerges

namespace Plan

variable {config : FaultConfig} {symbols symbols' : SymbolTable} {routine : Routine} {b : Bool} {ω : Plan}

/-- A phi of a block that has been sealed is placed as the edges into the block say. -/
theorem Shaped.placed {merges : Bool} {c : Block} (h : Shaped merges ω c) (hω : ω.Sound)
    (hc : ω.known.isSealed c = true) (hentry : c ≠ Function.entry) {phi : Value}
    (hphi : phi ∈ (ω.builder.info c).phis) : PhiPlaced ω.builder.function merges c phi := by
  obtain ⟨x, hblocks, -⟩ := hω.filled hphi hc
  obtain ⟨y, howner⟩ := Option.ne_none_iff_exists'.1 (hω.owned hphi)
  obtain ⟨-, -, -, -, -, incoming, hinst⟩ := hω.record.coherent.owned howner
  rw [Builder.incoming_of_inst hinst] at hblocks
  unfold Shaped at h
  generalize hlabel : (ω.builder.info c).label = label at h
  generalize hpreds : ω.builder.preds c = preds at h hblocks
  cases h with
  | dead =>
    obtain rfl := List.map_eq_nil_iff.1 hblocks
    refine .dead hlabel (fun p hp => ?_) hpreds hinst
    -- The last edge of a path comes from a predecessor.
    cases hp with
    | entry => exact hentry rfl
    | edge _ hedge =>
      have hmem := (hω.record.edges.mem _ c).1 hedge
      rw [show ω.builder.preds c = [] from hpreds] at hmem
      cases hmem
  | plain =>
    rw [hω.plain hc hpreds] at hphi
    cases hphi
  | merge hmerges hlabels =>
    obtain ⟨⟨p, v⟩, rest, rfl, rfl, hrest⟩ := List.map_eq_cons_iff.1 hblocks
    obtain ⟨⟨q, w⟩, last, rfl, rfl, hlast⟩ := List.map_eq_cons_iff.1 hrest
    obtain rfl := List.map_eq_nil_iff.1 hlast
    exact .merge hmerges (hlabel ▸ hlabels) hpreds hinst

/-- So are all phis of a function that has been lowered. -/
theorem Made.phisAtMerges (h : Made config symbols routine b symbols' ω) (hglobal : symbols.Global)
    (hsingle : ω.record.draft.Single) : PhisAtMerges ω.record.draft routine.branches := by
  obtain ⟨hω, hclosed⟩ := h.closed
  have hexists : ∀ {c phi}, phi ∈ (ω.builder.info c).phis → c.index < ω.builder.blockCount := by
    intro c phi hphi
    by_contra hle
    rw [show ω.builder.info c = default from Function.block_of_le (Nat.not_lt.1 hle)] at hphi
    cases hphi
  have hentry : (ω.builder.info Function.entry).phis = [] := (h.whole hglobal).entry_phis
  constructor
  case edges => exact hω.record.edges
  case entry => exact hentry
  case oneWay =>
    intro c q hpreds
    refine List.eq_nil_iff_forall_not_mem.2 fun phi hphi => ?_
    have hplain : (ω.builder.info c).phis = [] := hω.plain (hclosed c (hexists hphi)).1 hpreds
    rw [hplain] at hphi
    cases hphi
  case placed =>
    intro c phi hphi
    have hc := hexists hphi
    have hne : c ≠ Function.entry := by
      rintro rfl
      rw [hentry] at hphi
      cases hphi
    exact ((h.shaped hc).resolve_left hne).placed hω (hclosed c hc).1 hne hphi
  case owned => exact fun c phi hphi => Option.ne_none_iff_exists'.1 (hω.owned hphi)
  case single =>
    intro c
    refine List.Nodup.map_on (fun v hv w hw heq => ?_) (hsingle.nodup c)
    obtain ⟨x, hx⟩ := Option.ne_none_iff_exists'.1 (hω.owned hv)
    exact hsingle.single hv hw hx (heq ▸ hx)

end Plan

end Abacus.Lowering
