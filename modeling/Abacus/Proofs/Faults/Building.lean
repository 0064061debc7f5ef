import Abacus.Proofs.Faults.Finishing
import Abacus.Proofs.Faults.Handlers

/-!
# How handlers and checked divisions are built

The blocks of a handler are finished one after the other. Those of which a branch decides wait until the
branch is there.

* `Draft.Handling`, `Draft.Dividing` — a handler or a checked division stands in a draft;
* `Draft.Called`, `Draft.Landed`, `Draft.Caught`, `Draft.Refused` — the stages in which a handler is built;
* `Drafting.invoke_builds`, `Drafting.checkedDiv_builds` — what stands in a draft where a call with a handler
  or a checked division has been made.
-/

namespace Abacus.Lowering

open Abacus.Flow (Value Block Ty Inst Terminator Builder BlockInfo)
open Drafting (on close)

/-! ## The handler -/

variable {config : FaultConfig} {d d' : Draft} {q : Block} {callee : String} {arguments : List Value}
  {v lhs rhs quotient : Value} {sites : InvokeSites} {first : Nat}

/-- A call with its handler stands in a draft, and nothing more is going to lead into the handler. -/
structure Draft.Handling (d : Draft) (config : FaultConfig) (q : Block) (callee : String)
    (arguments : List Value) (v : Value) (sites : InvokeSites) (first : Nat) : Prop where
  stands : HandlerAt config d.builder.function q callee arguments v sites first
  back : ∀ stage, ∃ source, d.StepsBack (sites.block stage) source

/-- It stays as it is. -/
theorem Draft.Handling.settled (h : d.Handling config q callee arguments v sites first)
    (hsettled : d.Settled d') : d'.Handling config q callee arguments v sites first := by
  obtain ⟨h, hback⟩ := h
  have hgrown := hsettled.grown
  constructor
  case back =>
    intro stage
    obtain ⟨source, hsource⟩ := hback stage
    exact ⟨source, (hsettled.back hsource).1⟩
  case stands =>
    constructor
    case exists' => exact Nat.lt_of_lt_of_le h.exists' hgrown.values
    case call =>
      rw [hgrown.inst h.exists' fun incoming hphi => Inst.noConfusion (h.call.symm.trans hphi)]
      exact h.call
    case calls =>
      obtain ⟨count, hcalls⟩ := h.calls
      exact ⟨count, hcalls.grown hgrown⟩
    case plain =>
      intro stage
      obtain ⟨source, hsource⟩ := hback stage
      exact (hsettled.back hsource).2.trans (h.plain stage)
    case landing => exact h.landing.grown hgrown (by simp [Inst.isPhi])
    case landingEnd => exact h.landingEnd.grown hgrown
    case caught => exact h.caught.grown hgrown (by simp [Inst.isPhi])
    case caughtEnd => exact h.caughtEnd.grown hgrown
    case faulted => exact h.faulted.grown hgrown (by simp [Inst.isPhi])
    case faultedEnd => exact h.faultedEnd.grown hgrown
    case unexpected => exact h.unexpected.grown hgrown (by simp [Inst.isPhi])
    case cleanupEnd => exact h.cleanupEnd.grown hgrown

namespace Drafting

open Draft (Blank)

/-- The blocks of a call that may fault, when so many blocks have been made before. -/
def sitesFrom (m : Nat) : InvokeSites := ⟨⟨m⟩, ⟨m + 1⟩, ⟨m + 2⟩, ⟨m + 3⟩, ⟨m + 4⟩, ⟨m + 5⟩⟩

/-- The labels of these blocks. -/
def siteLabels : List String :=
  [.normal, .checking, .caught, .faulted, .unexpected, .cleanup].map FaultState.label

theorem on_newInvokeSites (d : Draft) :
    newInvokeSites.on d = (.ok (sitesFrom d.builder.blockCount), d.addBlocks siteLabels) := by
  unfold newInvokeSites newBlock
  simp only [on_bind, on_build, on_pure, Builder.newBlock_fst, Builder.blockCount_newBlock]
  rfl

/-- The instructions of the landing block, whose values are numbered from `first` on. -/
def landingCode (config : FaultConfig) (first : Nat) : List (Inst × Ty) :=
  [(.landingPad, .fault), (.faultSelector ⟨first⟩, .int), (.faultTypeId config.typeId, .int),
    (.intCompare .equal ⟨first + 1⟩ ⟨first + 2⟩, .bool)]

/-- The instructions of the block that reports the fault. -/
def caughtCode (pad : Value) (first : Nat) : List (Inst × Ty) :=
  [(.beginCatch pad, .int), (.reportFault ⟨first⟩, .unit), (.endCatch, .unit), (.intConst 0, .int)]

/-- The instructions of the block for faults of other types. -/
def faultedCode (selector : Value) (first : Nat) : List (Inst × Ty) :=
  [(.intConst 0, .int), (.intCompare .less selector ⟨first⟩, .bool)]

variable (config) (sites)

theorem on_fillLanding (hcaught : d.Blank sites.caught none) (hfaulted : d.Blank sites.faulted none)
    (hne : sites.faulted ≠ sites.caught) : (fillLanding config sites).on d =
      (.ok (⟨d.builder.valueCount⟩, ⟨d.builder.valueCount + 1⟩),
        d.finishBlock sites.landing (landingCode config d.builder.valueCount)
          (.branch ⟨d.builder.valueCount + 3⟩ sites.caught sites.faulted)) := by
  unfold fillLanding setCurrent emit terminate
  simp only [on_bind, on_build, on_rebuild, on_pure, Builder.push_fst, Builder.valueCount_push,
    Builder.valueCount_setCurrent, hcaught.on_sealBlock, hfaulted.on_sealBlock_second hne]
  rfl

theorem on_fillCaught (pad : Value) : (fillCaught sites pad).on d =
    (.ok (), d.finishBlock sites.caught (caughtCode pad d.builder.valueCount)
      (.ret ⟨d.builder.valueCount + 3⟩)) := by
  unfold fillCaught setCurrent emit terminate
  simp only [on_bind, on_build, on_rebuild, Builder.push_fst, Builder.valueCount_push,
    Builder.valueCount_setCurrent]
  rfl

theorem on_fillFaulted (pad selector : Value) (hunexpected : d.Blank sites.unexpected none)
    (hcleanup : d.Blank sites.cleanup none) (hne : sites.cleanup ≠ sites.unexpected) :
    (fillFaulted sites pad selector).on d = (.ok (), ((d.finishBlock sites.faulted
      (faultedCode selector d.builder.valueCount)
      (.branch ⟨d.builder.valueCount + 1⟩ sites.unexpected sites.cleanup)).finishBlock sites.unexpected
        [(.callUnexpected pad, .unit)] .unreachable).finishBlock sites.cleanup [] (.resume pad)) := by
  unfold fillFaulted setCurrent emit terminate
  simp only [on_bind, on_build, on_rebuild, Builder.push_fst, Builder.valueCount_push,
    Builder.valueCount_setCurrent, hunexpected.on_sealBlock, hcleanup.on_sealBlock_second hne]
  rfl

end Drafting

/-! ### The call -/

namespace Draft

/-- A value that is the call. It stands in no block. -/
def call (d : Draft) (callee : String) (arguments : List Value) : Draft :=
  { d with builder := (d.builder.newValue (.call callee arguments) .int d.builder.current).2 }

theorem valueCount_call (d : Draft) (callee : String) (arguments : List Value) :
    (d.call callee arguments).builder.valueCount = d.builder.valueCount + 1 := by
  simp [call, Builder.newValue, Builder.valueCount]

theorem proceeds_call (d : Draft) (callee : String) (arguments : List Value) :
    d.Proceeds (d.call callee arguments) :=
  ⟨.of_builder (Builder.grown_newValue ..) fun _ _ hback => ⟨hback.2, rfl⟩,
    fun h => ⟨h.current, h.preds, h.waiting, h.sealed'⟩⟩

theorem Blank.call {c : Block} {source? : Option Block} (h : d.Blank c source?) (callee : String)
    (arguments : List Value) : (d.call callee arguments).Blank c source? :=
  ⟨h.exists', h.info, h.isSealed, h.idle⟩

/-- A call has been made. It goes on in the first of six blocks that are numbered from `m` on, and its
faults land in the second one. -/
structure Called (d : Draft) (q : Block) (callee : String) (arguments : List Value) (v : Value) (m : Nat) :
    Prop where
  exists' : v.index < d.builder.valueCount
  call : d.builder.function.inst v = .call callee arguments
  calls : ∃ count, d.builder.function.Closed q count (.invoke v ⟨m⟩ ⟨m + 1⟩)
  normal : d.Blank ⟨m⟩ (some q)
  landing : d.Blank ⟨m + 1⟩ (some q)
  waiting : ∀ {i}, 1 < i → i < 6 → d.Blank ⟨m + i⟩ none

end Draft

/-- The current block is none of those that are made next, and stays open while they are made. -/
theorem Draft.Founded.current_apart (hd : d.Founded)
    (hopen : d.builder.isTerminated d.builder.current = false) (labels : List String) :
    (∀ {i}, (⟨d.builder.blockCount + i⟩ : Block) ≠ d.builder.current) ∧
      d.builder.current.index < (d.addBlocks labels).builder.blockCount ∧
      ((d.addBlocks labels).builder.info d.builder.current).terminator? = none := by
  refine ⟨?_, ?_, ?_⟩
  · rintro i hi
    have hlt := hd.current
    rw [show d.builder.current = _ from hi.symm] at hlt
    exact absurd hlt (by simp)
  · rw [Draft.blockCount_addBlocks]
    exact Nat.lt_add_right _ hd.current
  · rw [(d.frame_addBlocks labels).2.2.2 _ hd.current]
    exact Builder.terminator?_of_open hopen

theorem block_ne {m i j : Nat} (h : i ≠ j) : (⟨m + i⟩ : Block) ≠ ⟨m + j⟩ :=
  fun he => h (Nat.add_left_cancel (congrArg Block.index he))

/-- A call can be made in every block that has no end yet. -/
theorem Draft.Founded.called (hd : d.Founded) (hopen : d.builder.isTerminated d.builder.current = false)
    (callee : String) (arguments : List Value) {labels : List String} (hlabels : labels.length = 6) :
    let d' := ((d.addBlocks labels).call callee arguments).finishBlock d.builder.current []
      (.invoke ⟨d.builder.valueCount⟩ ⟨d.builder.blockCount⟩ ⟨d.builder.blockCount + 1⟩)
    d.Proceeds d' ∧
      d'.Called d.builder.current callee arguments ⟨d.builder.valueCount⟩ d.builder.blockCount := by
  intro d'
  let q := d.builder.current
  let v : Value := ⟨d.builder.valueCount⟩
  let d₀ := (d.addBlocks labels).call callee arguments
  let t : Terminator := .invoke v ⟨d.builder.blockCount⟩ ⟨d.builder.blockCount + 1⟩
  have hcount : (d.addBlocks labels).builder.valueCount = d.builder.valueCount :=
    (d.frame_addBlocks labels).2.2.1
  have hblank : ∀ {i}, i < 6 → d₀.Blank ⟨d.builder.blockCount + i⟩ none := fun hi =>
    (Draft.blank_addBlocks hd (hlabels ▸ hi)).call callee arguments
  obtain ⟨hne, hexists, hopen'⟩ := hd.current_apart hopen labels
  have hvalues : d'.builder.valueCount = d.builder.valueCount + 1 := by
    rw [Draft.valueCount_finishBlock, Draft.valueCount_call, hcount]
    rfl
  have hnormal : d₀.Blank ⟨d.builder.blockCount⟩ none := hblank (i := 0) (by omega)
  have hlanding : d₀.Blank ⟨d.builder.blockCount + 1⟩ none := hblank (by omega)
  have hgoes : d₀.Proceeds d' := by
    refine Draft.proceeds_finishBlock hexists hopen' (List.forall_mem_cons.2 ⟨?_, ?_⟩)
    · exact ⟨hnormal.exists', hnormal.isSealed⟩
    · exact List.forall_mem_singleton.2 ⟨hlanding.exists', hlanding.isSealed⟩
  refine ⟨(d.proceeds_addBlocks labels).trans ((Draft.proceeds_call ..).trans hgoes), ?_⟩
  constructor
  case exists' => exact hvalues ▸ Nat.lt_succ_self _
  case call =>
    show ((d₀.finishBlock q [] t).builder.valueInfo v).inst = _
    rw [Draft.builder_finishBlock, Builder.valueInfo_terminate]
    show (((d.addBlocks labels).builder.newValue _ _ _).2.valueInfo v).inst = _
    rw [Builder.valueInfo_newValue, if_pos hcount.symm]
  case calls => exact ⟨_, (Draft.has_finishBlock (d := d₀) [] t hexists hopen' (by simp)).2⟩
  case normal => exact hnormal.reached (hne (i := 0)) (by simp [Terminator.successors])
  case landing => exact hlanding.reached hne (by simp [Terminator.successors])
  case waiting =>
    intro i hi hlt
    refine (hblank hlt).spared hne ?_
    simp only [Terminator.successors, List.mem_cons, List.not_mem_nil, or_false, not_or]
    exact ⟨block_ne (j := 0) (by omega), block_ne (by omega)⟩

/-! ### Its handler -/

namespace Draft

/-- The landing block has been finished. -/
structure Landed (d : Draft) (config : FaultConfig) (m first : Nat) : Prop where
  count : d.builder.valueCount = first + 4
  landing : d.builder.function.Has ⟨m + 1⟩ 0 first [.landingPad, .faultSelector ⟨first⟩,
    .faultTypeId config.typeId, .intCompare .equal ⟨first + 1⟩ ⟨first + 2⟩]
  landingEnd : d.builder.function.Closed ⟨m + 1⟩ 4 (.branch ⟨first + 3⟩ ⟨m + 2⟩ ⟨m + 3⟩)
  toCaught : d.Blank ⟨m + 2⟩ (some ⟨m + 1⟩)
  toFaulted : d.Blank ⟨m + 3⟩ (some ⟨m + 1⟩)
  waiting : ∀ {i}, 3 < i → i < 6 → d.Blank ⟨m + i⟩ none

/-- So has the block that reports the fault. -/
structure Caught (d : Draft) (m first : Nat) : Prop where
  count : d.builder.valueCount = first + 8
  caught : d.builder.function.Has ⟨m + 2⟩ 0 (first + 4) [.beginCatch ⟨first⟩, .reportFault ⟨first + 4⟩,
    .endCatch, .intConst 0]
  caughtEnd : d.builder.function.Closed ⟨m + 2⟩ 4 (.ret ⟨first + 7⟩)
  toFaulted : d.Blank ⟨m + 3⟩ (some ⟨m + 1⟩)
  waiting : ∀ {i}, 3 < i → i < 6 → d.Blank ⟨m + i⟩ none

/-- So have the blocks for faults of other types. -/
structure Refused (d : Draft) (m first : Nat) : Prop where
  faulted : d.builder.function.Has ⟨m + 3⟩ 0 (first + 8) [.intConst 0,
    .intCompare .less ⟨first + 1⟩ ⟨first + 8⟩]
  faultedEnd : d.builder.function.Closed ⟨m + 3⟩ 2 (.branch ⟨first + 9⟩ ⟨m + 4⟩ ⟨m + 5⟩)
  unexpected : d.builder.function.Has ⟨m + 4⟩ 0 (first + 10) [.callUnexpected ⟨first⟩]
  cleanupEnd : d.builder.function.Closed ⟨m + 5⟩ 0 (.resume ⟨first⟩)
  toUnexpected : d.StepsBack ⟨m + 4⟩ ⟨m + 3⟩ ∧ (d.builder.info ⟨m + 4⟩).phis = []
  toCleanup : d.StepsBack ⟨m + 5⟩ ⟨m + 3⟩ ∧ (d.builder.info ⟨m + 5⟩).phis = []

variable {m first : Nat}

theorem Called.landed (h : d.Called q callee arguments v m) (config : FaultConfig) :
    ∃ d', (Drafting.fillLanding config (Drafting.sitesFrom m)).on d =
        (.ok (⟨d.builder.valueCount⟩, ⟨d.builder.valueCount + 1⟩), d') ∧
      d.Proceeds d' ∧ d'.Landed config m d.builder.valueCount := by
  let first := d.builder.valueCount
  let t : Terminator := .branch ⟨first + 3⟩ ⟨m + 2⟩ ⟨m + 3⟩
  have hcaught : d.Blank ⟨m + 2⟩ none := h.waiting (by omega) (by omega)
  have hfaulted : d.Blank ⟨m + 3⟩ none := h.waiting (by omega) (by omega)
  obtain ⟨hgoes, hlanding, hlandingEnd⟩ :=
    h.landing.finished (Drafting.landingCode config first) t
      (by simp [Drafting.landingCode, Inst.isPhi])
      (List.forall_mem_cons.2 ⟨hcaught, List.forall_mem_singleton.2 hfaulted⟩)
  refine ⟨_, Drafting.on_fillLanding config (Drafting.sitesFrom m) hcaught hfaulted (block_ne (by omega)),
    hgoes, ?_⟩
  constructor
  case count => exact valueCount_finishBlock
  case landing => exact hlanding
  case landingEnd => exact hlandingEnd
  case toCaught =>
    refine hcaught.reached (block_ne (by omega)) ?_
    simp [Terminator.successors, Drafting.sitesFrom]
  case toFaulted =>
    refine hfaulted.reached (block_ne (by omega)) ?_
    simp [Terminator.successors, Drafting.sitesFrom]
  case waiting =>
    intro i hi hlt
    refine (h.waiting (by omega) hlt).spared (block_ne (by omega)) ?_
    simp only [Terminator.successors, List.mem_cons, List.not_mem_nil, or_false, not_or]
    exact ⟨block_ne (by omega), block_ne (by omega)⟩

theorem Landed.caught (h : d.Landed config m first) :
    ∃ d', (Drafting.fillCaught (Drafting.sitesFrom m) ⟨first⟩).on d = (.ok (), d') ∧
      d.Proceeds d' ∧ d'.Caught m first := by
  obtain ⟨hgoes, hcaught, hcaughtEnd⟩ :=
    h.toCaught.finished (Drafting.caughtCode ⟨first⟩ d.builder.valueCount)
      (.ret ⟨d.builder.valueCount + 3⟩) (by simp [Drafting.caughtCode, Inst.isPhi]) nofun
  have hcount := h.count
  refine ⟨_, Drafting.on_fillCaught (Drafting.sitesFrom m) ⟨first⟩, hgoes, ?_⟩
  constructor
  case count => rw [valueCount_finishBlock, hcount]; rfl
  case caught => rw [hcount] at hcaught ⊢; exact hcaught
  case caughtEnd => rw [hcount] at hcaughtEnd ⊢; exact hcaughtEnd
  case toFaulted => exact h.toFaulted.spared (block_ne (by omega)) nofun
  case waiting => exact fun hi hlt => (h.waiting hi hlt).spared (block_ne (by omega)) nofun

theorem Caught.refused (h : d.Caught m first) :
    ∃ d', (Drafting.fillFaulted (Drafting.sitesFrom m) ⟨first⟩ ⟨first + 1⟩).on d = (.ok (), d') ∧
      d.Proceeds d' ∧ d'.Refused m first := by
  have hcount := h.count
  have hunexpected : d.Blank ⟨m + 4⟩ none := h.waiting (by omega) (by omega)
  have hcleanup : d.Blank ⟨m + 5⟩ none := h.waiting (by omega) (by omega)
  have hon := Drafting.on_fillFaulted (Drafting.sitesFrom m) ⟨first⟩ ⟨first + 1⟩ hunexpected hcleanup
    (block_ne (by omega))
  rw [hcount] at hon
  let t : Terminator := .branch ⟨first + 9⟩ ⟨m + 4⟩ ⟨m + 5⟩
  -- The block itself leads to two more.
  obtain ⟨hgoes₁, hfaulted, hfaultedEnd⟩ :=
    h.toFaulted.finished (Drafting.faultedCode ⟨first + 1⟩ (first + 8)) t
      (by simp [Drafting.faultedCode, Inst.isPhi])
      (List.forall_mem_cons.2 ⟨hunexpected, List.forall_mem_singleton.2 hcleanup⟩)
  rw [hcount] at hfaulted
  let d₁ := d.finishBlock ⟨m + 3⟩ (Drafting.faultedCode ⟨first + 1⟩ (first + 8)) t
  have hcount₁ : d₁.builder.valueCount = first + 10 := by
    rw [valueCount_finishBlock, hcount]
    rfl
  have hunexpected₁ : d₁.Blank ⟨m + 4⟩ (some ⟨m + 3⟩) :=
    hunexpected.reached (block_ne (by omega)) (by simp [Terminator.successors, t])
  have hcleanup₁ : d₁.Blank ⟨m + 5⟩ (some ⟨m + 3⟩) :=
    hcleanup.reached (block_ne (by omega)) (by simp [Terminator.successors, t])
  -- These lead nowhere.
  obtain ⟨hgoes₂, hstop, -⟩ := hunexpected₁.finished [(.callUnexpected ⟨first⟩, .unit)]
    .unreachable (by simp [Inst.isPhi]) nofun
  rw [hcount₁] at hstop
  let d₂ := d₁.finishBlock ⟨m + 4⟩ [(.callUnexpected ⟨first⟩, .unit)] .unreachable
  have hcleanup₂ : d₂.Blank ⟨m + 5⟩ (some ⟨m + 3⟩) := hcleanup₁.spared (block_ne (by omega)) nofun
  obtain ⟨hgoes₃, -, hpasses⟩ := hcleanup₂.finished [] (.resume ⟨first⟩) nofun nofun
  have hend := hgoes₂.trans hgoes₃
  refine ⟨_, hon, hgoes₁.trans hend, ?_⟩
  constructor
  case faulted => exact hfaulted.grown hend.grown (by simp [Drafting.faultedCode, Inst.isPhi])
  case faultedEnd => exact hfaultedEnd.grown hend.grown
  case unexpected => exact hstop.grown hgoes₃.grown (by simp [Inst.isPhi])
  case cleanupEnd => exact hpasses
  case toUnexpected => exact hunexpected₁.kept hend
  case toCleanup => exact hcleanup₂.kept hgoes₃

end Draft

namespace Drafting

/-- A call is made, and both blocks in which it goes on are sealed. -/
theorem on_invokeCall {α : Type} {normal landing : Block} (hnormal : d.Blank normal none)
    (hlanding : d.Blank landing none) (hne : landing ≠ normal) (callee : String) (arguments : List Value)
    (next : Value → Drafting α) : on (do
      let result ← build fun b => b.invoke callee arguments .int normal landing
      sealBlock normal
      sealBlock landing
      next result) d = on (next ⟨d.builder.valueCount⟩) ((d.call callee arguments).finishBlock
        d.builder.current [] (.invoke ⟨d.builder.valueCount⟩ normal landing)) := by
  simp only [on_bind, on_build, Builder.invoke_eq, hnormal.on_sealBlock, hlanding.on_sealBlock_second hne]
  rfl

/-- A call with a handler can be made in every block that has no end yet. -/
theorem invoke_builds (config : FaultConfig) (callee : String) (arguments : List Value) (hd : d.Founded)
    (hopen : d.builder.isTerminated d.builder.current = false) :
    ∃ d', (invoke config callee arguments).on d =
        (.ok (⟨d.builder.valueCount⟩, sitesFrom d.builder.blockCount), d') ∧ d.Proceeds d' ∧
      d'.Handling config d.builder.current callee arguments ⟨d.builder.valueCount⟩
        (sitesFrom d.builder.blockCount) (d.builder.valueCount + 1) := by
  let m := d.builder.blockCount
  let v : Value := ⟨d.builder.valueCount⟩
  let d₀ := d.addBlocks siteLabels
  let d₁ := (d₀.call callee arguments).finishBlock d.builder.current [] (.invoke v ⟨m⟩ ⟨m + 1⟩)
  have hcurrent : d₀.builder.current = d.builder.current := (d.frame_addBlocks siteLabels).2.1
  have hcount : d₀.builder.valueCount = d.builder.valueCount := (d.frame_addBlocks siteLabels).2.2.1
  obtain ⟨hgoes₁, hcalled⟩ : d.Proceeds d₁ ∧ d₁.Called d.builder.current callee arguments v m :=
    hd.called hopen callee arguments rfl
  have hfirst : d₁.builder.valueCount = d.builder.valueCount + 1 := by
    rw [Draft.valueCount_finishBlock, Draft.valueCount_call, hcount]
    rfl
  obtain ⟨d₂, hon₂, hgoes₂, hlanded⟩ := hcalled.landed config
  rw [hfirst] at hon₂ hlanded
  obtain ⟨d₃, hon₃, hgoes₃, hcaught⟩ := hlanded.caught
  obtain ⟨d₄, hon₄, hgoes₄, hrefused⟩ := hcaught.refused
  let d₅ : Draft := { d₄ with builder := d₄.builder.setCurrent ⟨m⟩ }
  have hgoes₅ : d₄.Proceeds d₅ := by
    refine Draft.proceeds_setCurrent ?_
    exact (hcalled.normal.kept (hgoes₂.trans (hgoes₃.trans hgoes₄))).1.lt
  have hend₃ := hgoes₄.trans hgoes₅
  have hend₂ := hgoes₃.trans hend₃
  have hend := hgoes₂.trans hend₂
  refine ⟨d₅, ?_, hgoes₁.trans hend, ?_⟩
  · have hnormal : d₀.Blank ⟨m⟩ none := Draft.blank_addBlocks (i := 0) hd (by decide)
    have hlanding : d₀.Blank ⟨m + 1⟩ none := Draft.blank_addBlocks hd (by decide)
    unfold invoke
    rw [on_bind, on_newInvokeSites]
    refine (on_invokeCall hnormal hlanding (block_ne (j := 0) (by omega)) callee arguments _).trans ?_
    rw [hcurrent, hcount, on_bind, hon₂]
    dsimp only
    rw [on_bind, hon₃]
    dsimp only
    rw [on_bind, hon₄]
    rfl
  · -- What has been made earlier is still there.
    have hback : ∀ stage, ∃ source, d₅.StepsBack ((sitesFrom m).block stage) source ∧
        (d₅.builder.info ((sitesFrom m).block stage)).phis = [] := by
      intro stage
      cases stage with
      | normal => exact ⟨_, hcalled.normal.kept hend⟩
      | checking => exact ⟨_, hcalled.landing.kept hend⟩
      | faulted => exact ⟨_, hcaught.toFaulted.kept hend₃⟩
      | caught => exact ⟨_, hlanded.toCaught.kept hend₂⟩
      | cleanup => exact ⟨_, hrefused.toCleanup⟩
      | unexpected => exact ⟨_, hrefused.toUnexpected⟩
    refine ⟨?_, fun stage => (hback stage).imp fun _ => And.left⟩
    constructor
    case exists' => exact Nat.lt_of_lt_of_le hcalled.exists' hend.grown.values
    case call =>
      rw [hend.grown.inst hcalled.exists' fun incoming hphi =>
        Inst.noConfusion (hcalled.call.symm.trans hphi)]
      exact hcalled.call
    case calls => exact hcalled.calls.imp fun _ hcalls => hcalls.grown hend.grown
    case plain => exact fun stage => (hback stage).choose_spec.2
    case landing => exact hlanded.landing.grown hend₂.grown (by simp [Inst.isPhi])
    case landingEnd => exact hlanded.landingEnd.grown hend₂.grown
    case caught => exact hcaught.caught.grown hend₃.grown (by simp [Inst.isPhi])
    case caughtEnd => exact hcaught.caughtEnd.grown hend₃.grown
    case faulted => exact hrefused.faulted
    case faultedEnd => exact hrefused.faultedEnd
    case unexpected => exact hrefused.unexpected
    case cleanupEnd => exact hrefused.cleanupEnd

end Drafting

/-! ## Checked divisions -/

/-- A checked division stands in a draft, and nothing more is going to lead into its blocks. -/
structure Draft.Dividing (d : Draft) (config : FaultConfig) (start : Nat) (lhs rhs quotient : Value)
    (sites : DivisionSites) (first : Nat) : Prop where
  stands : DivisionAt config d.builder.function start lhs rhs quotient sites first
  back : d.StepsBack sites.zero sites.check ∧ d.StepsBack sites.okay sites.check

/-- It stays as it is. -/
theorem Draft.Dividing.settled {start : Nat} {sites : DivisionSites}
    (h : d.Dividing config start lhs rhs quotient sites first) (hsettled : d.Settled d') :
    d'.Dividing config start lhs rhs quotient sites first := by
  obtain ⟨h, hzero, hokay⟩ := h
  have hgrown := hsettled.grown
  obtain ⟨hzero', hplainZero⟩ := hsettled.back hzero
  obtain ⟨hokay', hplainOkay⟩ := hsettled.back hokay
  refine ⟨?_, hzero', hokay'⟩
  constructor
  case check => exact h.check.grown hgrown (by simp [Inst.isPhi])
  case checkEnd => exact h.checkEnd.grown hgrown
  case plainZero => exact hplainZero.trans h.plainZero
  case plainOkay => exact hplainOkay.trans h.plainOkay
  case zero => exact h.zero.grown hgrown (by simp [Inst.isPhi])
  case zeroEnd => exact h.zeroEnd.grown hgrown
  case okay => exact h.okay.grown hgrown (by simp [Inst.isPhi])
  case quotient => exact h.quotient

namespace Drafting

/-- Two blocks are added. -/
theorem on_newBlocks {α : Type} (first second : String) (next : Block → Block → Drafting α) (d : Draft) :
    on (do
      let a ← newBlock first
      let b ← newBlock second
      next a b) d =
        on (next ⟨d.builder.blockCount⟩ ⟨d.builder.blockCount + 1⟩) (d.addBlocks [first, second]) := by
  unfold newBlock
  simp only [on_bind, on_build, Builder.newBlock_fst, Builder.blockCount_newBlock]
  rfl

/-- A checked division can be made in every block that has no end yet. -/
theorem checkedDiv_builds (config : FaultConfig) (lhs rhs : Value) (hd : d.Founded)
    (hopen : d.builder.isTerminated d.builder.current = false) :
    ∃ d', (checkedDiv config lhs rhs).on d = (.ok (⟨d.builder.valueCount + 3⟩,
        ⟨d.builder.current, ⟨d.builder.blockCount⟩, ⟨d.builder.blockCount + 1⟩⟩), d') ∧ d.Proceeds d' ∧
      d'.Dividing config (d.builder.info d.builder.current).insts.size lhs rhs ⟨d.builder.valueCount + 3⟩
        ⟨d.builder.current, ⟨d.builder.blockCount⟩, ⟨d.builder.blockCount + 1⟩⟩ d.builder.valueCount := by
  let m := d.builder.blockCount
  let n := d.builder.valueCount
  let q := d.builder.current
  let labels := ["div.zero", "div.ok"]
  let d₀ := d.addBlocks labels
  have hcurrent : d₀.builder.current = q := (d.frame_addBlocks labels).2.1
  have hcount : d₀.builder.valueCount = n := (d.frame_addBlocks labels).2.2.1
  have hinfo : d₀.builder.info q = d.builder.info q := (d.frame_addBlocks labels).2.2.2 q hd.current
  have hzero : d₀.Blank ⟨m⟩ none := Draft.blank_addBlocks (i := 0) hd (by decide)
  have hokay : d₀.Blank ⟨m + 1⟩ none := Draft.blank_addBlocks hd (by decide)
  -- The current block tests the divisor.
  let checkCode : List (Inst × Ty) := [(.intConst 0, .int), (.intCompare .equal rhs ⟨n⟩, .bool)]
  let t : Terminator := .branch ⟨n + 1⟩ ⟨m⟩ ⟨m + 1⟩
  let d₁ := d₀.finishBlock q checkCode t
  obtain ⟨hne, hexists, hopen'⟩ := hd.current_apart hopen labels
  obtain ⟨hcheck, hcheckEnd⟩ := Draft.has_finishBlock checkCode t hexists hopen'
    (by simp [checkCode, Inst.isPhi])
  rw [hcount, hinfo] at hcheck
  rw [hinfo] at hcheckEnd
  have hgoes₁ : d₀.Proceeds d₁ := by
    refine Draft.proceeds_finishBlock hexists hopen' (List.forall_mem_cons.2 ⟨?_, ?_⟩)
    · exact ⟨hzero.exists', hzero.isSealed⟩
    · exact List.forall_mem_singleton.2 ⟨hokay.exists', hokay.isSealed⟩
  have hcount₁ : d₁.builder.valueCount = n + 2 := by
    rw [Draft.valueCount_finishBlock, hcount]
    rfl
  have hzero₁ : d₁.Blank ⟨m⟩ (some q) := hzero.reached (hne (i := 0)) (by simp [t, Terminator.successors])
  have hokay₁ : d₁.Blank ⟨m + 1⟩ (some q) := hokay.reached hne (by simp [t, Terminator.successors])
  -- One block raises the fault.
  let d₂ := d₁.finishBlock ⟨m⟩ [(.faultAlloc config.code config.typeId, .fault)] (.raise ⟨n + 2⟩)
  obtain ⟨hgoes₂, hraise, hraiseEnd⟩ := hzero₁.finished
    [(.faultAlloc config.code config.typeId, .fault)] (.raise ⟨n + 2⟩)
    (by simp [Inst.isPhi]) nofun
  rw [hcount₁] at hraise
  have hokay₂ : d₂.Blank ⟨m + 1⟩ (some q) := hokay₁.spared (block_ne (j := 0) (by omega)) nofun
  have hcount₂ : d₂.builder.valueCount = n + 3 := by
    rw [Draft.valueCount_finishBlock, hcount₁]
    rfl
  -- The other one divides, and is gone on in.
  let d₃ : Draft :=
    { d₂ with builder := (d₂.builder.setCurrent ⟨m + 1⟩).pushes [(.intArith .div lhs rhs, .int)] }
  have hgoes₃ : d₂.Proceeds d₃ := Draft.proceeds_pushes hokay₂.exists' hokay₂.open'
  have hdivide : d₃.builder.function.Has ⟨m + 1⟩ 0 (n + 3) [.intArith .div lhs rhs] := by
    have hhas := Builder.has_pushes (d₂.builder.setCurrent ⟨m + 1⟩) [(.intArith .div lhs rhs, .int)]
      hokay₂.exists' hokay₂.open' (by simp [Inst.isPhi])
    obtain ⟨label, hblank⟩ := hokay₂.info
    rw [Builder.current_setCurrent, Builder.valueCount_setCurrent, hcount₂,
      show (d₂.builder.setCurrent ⟨m + 1⟩).info ⟨m + 1⟩ = _ from hblank] at hhas
    exact hhas
  have hend := hgoes₂.trans hgoes₃
  refine ⟨d₃, ?_, (d.proceeds_addBlocks labels).trans (hgoes₁.trans hend), ?_, (hzero₁.kept hend).1,
    (hokay₁.kept hend).1⟩
  · unfold checkedDiv
    rw [on_bind, show on currentBlock d = (.ok d.builder.current, d) from rfl]
    refine (on_newBlocks _ _ _ d).trans ?_
    change on _ d₀ = _
    have hseal : ∀ builder, on (sealBlock ⟨d.builder.blockCount⟩) ⟨builder, d₀.known⟩ =
      (.ok (), close ⟨builder, d₀.known⟩ ⟨d.builder.blockCount⟩) := hzero.on_sealBlock
    have hseal' : ∀ builder, on (sealBlock ⟨d.builder.blockCount + 1⟩)
        (close ⟨builder, d₀.known⟩ ⟨d.builder.blockCount⟩) = (.ok (), close
          (close ⟨builder, d₀.known⟩ ⟨d.builder.blockCount⟩) ⟨d.builder.blockCount + 1⟩) :=
      hokay.on_sealBlock_second (block_ne (j := 0) (by omega))
    unfold setCurrent emit terminate
    simp only [on_bind, on_build, on_rebuild, on_pure, Builder.push_fst, Builder.valueCount_push,
      Builder.valueCount_setCurrent, hcount, hseal, hseal', Draft.builder_close, Builder.valueCount_terminate]
    rfl
  · constructor
    case check => exact hcheck.grown hend.grown (by simp [checkCode, Inst.isPhi])
    case checkEnd => exact hcheckEnd.grown hend.grown
    case plainZero => exact (hzero₁.kept hend).2
    case plainOkay => exact (hokay₁.kept hend).2
    case zero => exact hraise.grown hgoes₃.grown (by simp [Inst.isPhi])
    case zeroEnd => exact hraiseEnd.grown hgoes₃.grown
    case okay => exact hdivide
    case quotient => rfl

end Drafting

end Abacus.Lowering
