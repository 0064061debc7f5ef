import Abacus.Lowering.Statement
import Abacus.Proofs.Lowering.Expressions

/-!
# How control structures are made

The plans that the parts of the lowering of statements go through which stand between the bodies.

* `Plan.Returned` — a value is given back, and what follows is out of reach;
* `Plan.Split`, `Plan.Switched`, `Plan.Joined` — the parts of a condition;
* `Plan.LoopHead`, `Plan.LoopTail` — the parts of a loop.
-/

namespace Abacus.Lowering

open Abacus.Flow (Value Block Ty Inst Terminator Builder)

namespace Plan

variable {σ σ' : Plan}

/-! ## Jumps -/

/-- The current block has ended with a jump to `c`. -/
structure Jumped (σ σ' : Plan) (c : Block) : Prop where
  sound : σ'.Sound
  extends' : Extends σ σ'
  current : σ'.current = σ.current
  target : ∀ {sources}, σ.Awaits c false sources → σ'.Awaits c false (sources ++ [σ.current])
  spares : ∀ {d}, d ≠ σ.current → d ≠ c → Spares σ σ' d
  since : ∀ {τ live live'}, Since τ σ live → τ.Own σ.current → τ.Own c →
    (∀ b ∈ live, b = σ.current ∨ b ∈ live') → Since τ σ' live'

theorem Ready.jumpTo (hσ : σ.Ready) {c : Block} (hlead : σ.MayLead [c]) :
    Jumped σ (σ.terminate (.jump c)) c := by
  have e : Extends σ (σ.terminate (.jump c)) := extends_terminate hσ.sound hσ.isOpen hlead
  constructor
  case sound =>
    exact hσ.sound.terminate hσ.isOpen hlead rfl (by simp [endOperands])
  case extends' => exact e
  case current => exact Builder.current_terminate ..
  case target => exact fun h => h.terminate (by simp [Terminator.successors])
  case spares =>
    exact fun hd hc => spares_terminate hσ.sound hd (by simpa [Terminator.successors] using hc)
  case since =>
    intro τ live live' hs hown hc hlive
    refine hs.ends e (Builder.blockCount_terminate ..) [σ.current, c] ?_ ?_ (e.isSealed hσ.isSealed)
      ?_ hlive
    · intro b hb
      rcases List.mem_pair.1 hb with rfl | rfl
      · exact hown
      · exact hc
    · intro b hb
      simp only [List.mem_cons, List.not_mem_nil, or_false, not_or] at hb
      exact spares_terminate hσ.sound hb.1 (by simpa [Terminator.successors] using hb.2)
    · rw [terminator?_terminate hσ.sound, if_pos rfl]
      rfl

/-- A jump to a block that waits. -/
theorem Ready.jump (hσ : σ.Ready) {c : Block} {sources : List Block}
    (hc : σ.Awaits c false sources) : Jumped σ (σ.terminate (.jump c)) c := by
  refine hσ.jumpTo (mayLead hσ.sound fun d hd => ?_)
  rw [List.mem_singleton.1 hd]
  exact ⟨sources, hc⟩

theorem Jumped.others (h : Jumped σ σ' c) (hσ : σ.Sound) {d : Block} {closed : Bool}
    {sources : List Block} (hd : σ.Awaits d closed sources) (hne : d ≠ c) :
    σ'.Awaits d closed sources :=
  hd.spared h.extends' (h.spares (hd.ne_current hσ) hne)

/-! ## Giving back -/

/-- A value is given back; the following statements go into a block that nothing leads to. -/
inductive Returned (σ : Plan) (v : Value) : Plan → Prop
  | intro {σ₁ : Plan} {dead : Block} {d : Draft} (next : dead = (σ.terminate (.ret v)).nextBlock)
      (enter : σ₁ = ((σ.terminate (.ret v)).newBlock "after_return").enter dead
        (σ.spine σ.current))
      (sealed : (Drafting.sealBlock dead).on σ₁.record.draft = (.ok (), d)) :
      Returned σ v (σ₁.sealed dead d)

theorem Returned.stages {v : Value} (h : Returned σ v σ') (hσ : σ.Ready)
    (hv : σ.Has σ.current v) : σ'.Ready ∧ Advance σ σ' ∧ (∀ {ω}, Extends σ' ω →
      ω.Ends σ.current (σ.record.script σ.current) (.ret v)) ∧
      σ'.builder.preds σ'.current = [] ∧
      (σ'.builder.info σ'.current).label = "after_return" := by
  obtain @⟨σ₁, dead, d, next, enter, hsealed⟩ := h
  obtain ⟨hsound, hclosed⟩ := hσ.close (t := .ret v) rfl rfl fun u hu =>
    List.mem_singleton.1 hu ▸ hv
  have hwaits : ((σ.terminate (.ret v)).newBlock "after_return").Awaits dead false [] :=
    next ▸ awaits_newBlock hsound _
  have hsince : Since σ ((σ.terminate (.ret v)).newBlock "after_return") [dead] :=
    next ▸ hclosed.newBlock _
  have hown : σ.Own dead := by
    rw [next]
    exact .inr (Nat.le_of_eq (Builder.blockCount_terminate ..).symm)
  have hsound' := hsound.newBlock "after_return"
  have hsound₁ : σ₁.Sound := by
    rw [enter]
    exact (hsound'.enterAwaited hwaits (by simp) (by simp)).1
  have hadvance₁ : Advance σ σ₁ := by
    rw [enter]
    exact hsince.last hsound' hwaits.spine hown fun a => id
  have hcurrent₁ : σ₁.current = dead := by
    rw [enter]
    rfl
  have hexists : dead.index < σ₁.builder.blockCount := by
    rw [enter]
    exact hwaits.exists'
  have hpreds : σ₁.builder.preds dead = [] := by
    rw [enter]
    exact hwaits.preds
  have hlabel : (σ₁.builder.info dead).label = "after_return" := by
    have hfresh : ((σ.terminate (.ret v)).newBlock "after_return").builder.info dead =
        Flow.BlockInfo.fresh "after_return" :=
      (Builder.info_newBlock ..).trans (if_pos (congrArg Block.index next))
    rw [enter]
    exact congrArg Flow.BlockInfo.label hfresh
  obtain ⟨hsound₂, e, hcurrent₂, hiff, hpreds₂, hterm⟩ :=
    hsound₁.sealBlock hexists (by simp [hpreds]) hsealed
  obtain ⟨_, hs⟩ := Recording.searches_seal hsound₁.record hexists hsealed
  have hopen' := hwaits.terminator hsound'
  have hopen : σ₁.terminator? dead = none := by
    rw [enter]
    exact hopen'
  refine ⟨⟨hsound₂, ?_, ?_⟩, hadvance₁.trans (.here hsound₁ e hcurrent₂ hs.blockCount ?_),
    fun {ω} e' => ?_, ?_, ?_⟩
  · rw [hcurrent₂, hcurrent₁]
    exact (hiff dead).2 (.inr rfl)
  · rw [hcurrent₂, hcurrent₁, hterm]
    exact hopen
  · intro c hc
    rw [hcurrent₁] at hc
    exact spares_sealed hsound₁ hexists hsealed hc
  · have hended := (spares_newBlock (σ.terminate (.ret v)) "after_return").ends
      (hσ.stands.ends (.ret v))
    have hne : σ.current ≠ dead := by
      rw [next]
      exact ne_of_apply_ne Block.index (Nat.ne_of_lt (Nat.lt_of_lt_of_eq hσ.sound.record.current
        (Builder.blockCount_terminate ..).symm))
    exact hended.left hne (enter ▸ e.trans e')
  · rw [hcurrent₂, hcurrent₁, hpreds₂, hpreds]
  · rw [hcurrent₂, hcurrent₁, e.label hexists, hlabel]

theorem Returned.advance {v : Value} (h : Returned σ v σ') (hσ : σ.Ready)
    (hv : σ.Has σ.current v) : σ'.Ready ∧ Advance σ σ' :=
  ⟨(h.stages hσ hv).1, (h.stages hσ hv).2.1⟩

/-! ## Conditions -/

/-- A truth value decides between two blocks; the first one is entered. -/
inductive Split (σ : Plan) (test : Value) : Plan → Prop
  | intro {σ₁ : Plan}
      (fork : SealsBoth ((σ.newBlocks ["if.then", "if.else", "if.join"]).terminate
        (.branch test (σ.block 0) (σ.block 1))) (σ.block 0) (σ.block 1) σ₁) :
      Split σ test (σ₁.enter (σ.block 0) (σ.spine σ.current))

/-- The first body ends, and the second block is entered. -/
def switch (σ σ₁ : Plan) : Plan :=
  (σ₁.terminate (.jump (σ.block 2))).enter (σ.block 1) (σ.spine σ.current)

/-- The second body ends, and both go on together. -/
inductive Joined (σ σ₁ : Plan) : Plan → Prop
  | intro {d : Draft}
      (sealed : (Drafting.sealBlock (σ.block 2)).on
        (σ₁.terminate (.jump (σ.block 2))).record.draft = (.ok (), d)) :
      Joined σ σ₁ (((σ₁.terminate (.jump (σ.block 2))).sealed (σ.block 2) d).enter (σ.block 2)
        (σ.spine σ.current))

/-- What holds at the start of the first body. -/
structure FirstBody (σ σ' : Plan) : Prop where
  ready : σ'.Ready
  since : Since σ σ' [σ.block 0, σ.block 1, σ.block 2]
  current : σ'.current = σ.block 0
  spine : σ'.spine σ'.current = σ.block 0 :: σ.spine σ.current
  second : σ'.Awaits (σ.block 1) true [σ.current]
  join : σ'.Awaits (σ.block 2) false []
  label : (σ'.builder.info (σ.block 2)).label = "if.join"

/-- Where the parts of a condition stand. Behind `done` in `b` a truth value decides between two
blocks. -/
structure SplitAt (σ : Plan) (b : Block) (done : List Event) (test : Value) (first second : Block) :
    Prop where
  branches : σ.Ends b done (.branch test first second)
  toFirst : σ.OneWay first b
  toSecond : σ.OneWay second b

theorem Split.stages {test : Value} (h : Split σ test σ') (hσ : σ.Ready)
    (htest : σ.Has σ.current test) : FirstBody σ σ' ∧ σ'.record.script σ'.current = [] ∧
      ∀ {ω}, Extends σ' ω → SplitAt ω σ.current (σ.record.script σ.current) test (σ.block 0)
        (σ.block 1) := by
  obtain ⟨fork⟩ := h
  have hopened : Opened σ _ 3 := hσ.newBlocks ["if.then", "if.else", "if.join"]
  obtain ⟨hparted, efork⟩ := hopened.branch hσ hopened.ready (.rfl' _) (hopened.has hσ htest)
    hopened.current (by decide) (by decide) (by decide) fork
  obtain ⟨hready, e⟩ := hparted.sound.enterBehind hparted.atFirst hparted.spine.symm
  refine ⟨?_, hparted.atFirst.script_enter hparted.sound _, fun {ω} e' =>
    ⟨?_, hparted.atFirst.oneWay.mono (e.trans e'), hparted.atSecond.oneWay.mono (e.trans e')⟩⟩
  case refine_2 =>
    have hended := hparted.ended
    rw [(hopened.spares _).script] at hended
    exact hended.left (hσ.sound.current_ne_block 0) e'
  constructor
  case ready => exact hready
  case since =>
    exact (hparted.since.enter hparted.sound hparted.atFirst.spine (own_block σ 0) _).mono
      (by simp [List.range_succ])
  case current => rfl
  case spine => exact spine_enter ..
  case second => exact hparted.atSecond.enter (block_inj.not.2 (by decide)) _
  case join =>
    exact (hparted.others (by decide) (by decide) (by decide)).enter
      (block_inj.not.2 (by decide)) _
  case label =>
    rw [(efork.trans e).label (hopened.awaits (i := 2) (by decide)).exists',
      label_newBlocks σ _ 2 (by decide)]
    rfl

theorem Split.firstBody {test : Value} (h : Split σ test σ') (hσ : σ.Ready)
    (htest : σ.Has σ.current test) : FirstBody σ σ' := (h.stages hσ htest).1

/-- What holds at the start of the second body. -/
structure SecondBody (σ σ₁ σ' : Plan) : Prop where
  ready : σ'.Ready
  extends' : Extends σ₁ σ'
  since : Since σ σ' [σ.block 1, σ.block 2]
  current : σ'.current = σ.block 1
  spine : σ'.spine σ'.current = σ.block 1 :: σ.spine σ.current
  join : σ'.Awaits (σ.block 2) false [σ₁.current]
  script : σ'.record.script σ'.current = []
  jumps : ∀ {ω}, Extends σ' ω →
    ω.Ends σ₁.current (σ₁.record.script σ₁.current) (.jump (σ.block 2))

/-- A block that waits is another one than a block that has been gone on in. -/
theorem Awaits.ne_of_advance {σ₀ σ₁ : Plan} {c : Block} {closed : Bool} {sources : List Block}
    (h : σ₀.Awaits c closed sources) (hσ₀ : σ₀.Ready) (hσ₁ : σ₁.Ready) (hadvance : Advance σ₀ σ₁) :
    σ₁.current ≠ c :=
  Ne.symm ((h.since hσ₀.sound hadvance.since).ne_current hσ₁.sound)

theorem FirstBody.secondBody {σ₀ σ₁ : Plan} (h : FirstBody σ σ₀) (hσ : σ.Ready)
    (hready : σ₁.Ready) (hadvance : Advance σ₀ σ₁) : SecondBody σ σ₁ (switch σ σ₁) := by
  have hjoin := h.join.since h.ready.sound hadvance.since
  have hsecond := h.second.since h.ready.sound hadvance.since
  have hjumped := hready.jump hjoin
  have hown : σ.Own σ₁.current :=
    .mono h.since.extends'.blockCount (h.current ▸ own_block σ 0) hadvance.own
  have hsince₁ : Since σ σ₁ [σ₁.current, σ.block 1, σ.block 2] :=
    Since.advance (h.current.symm ▸ h.since) (h.current ▸ own_block σ 0) hadvance
  have hsince₂ := hjumped.since hsince₁ hown (own_block σ 2) fun b hb => List.mem_cons.1 hb
  have hsecond₂ := hjumped.others hready.sound hsecond (block_inj.not.2 (by decide))
  obtain ⟨hready₂, e₂⟩ :=
    hjumped.sound.enterBehind hsecond₂ (hsince₂.extends'.spine hσ.sound.used).symm
  constructor
  case ready => exact hready₂
  case extends' => exact hjumped.extends'.trans e₂
  case since => exact hsince₂.enter hjumped.sound hsecond₂.spine (own_block σ 1) _
  case current => rfl
  case spine => exact spine_enter ..
  case join => exact (hjumped.target hjoin).enter (block_inj.not.2 (by decide)) _
  case script => exact hsecond₂.script_enter hjumped.sound _
  case jumps =>
    exact fun e => (hready.stands.ends (.jump (σ.block 2))).left
      (h.second.ne_of_advance h.ready hready hadvance) e

/-- After both bodies a condition goes on in an open block. -/
theorem SecondBody.joined {σ₁ σ₂ σ₃ : Plan} (h : SecondBody σ σ₁ σ₂)
    (hσ₁ : σ₁.Sound) (hspine₁ : ∀ a ∈ σ.spine σ.current, a ∈ σ₁.spine σ₁.current)
    (hready : σ₃.Ready) (hadvance : Advance σ₂ σ₃) (hjoined : Joined σ σ₃ σ') :
    σ'.Ready ∧ Advance σ σ' ∧ Extends σ₃ σ' ∧ σ'.record.script σ'.current = [] ∧
      σ'.current = σ.block 2 ∧ ∀ {ω}, Extends σ' ω →
        ω.Ends σ₃.current (σ₃.record.script σ₃.current) (.jump (σ.block 2)) := by
  obtain @⟨d, hsealed⟩ := hjoined
  have hjoin := h.join.since h.ready.sound hadvance.since
  have hjumped := hready.jump hjoin
  have hown : σ.Own σ₃.current :=
    .mono h.since.extends'.blockCount (h.current ▸ own_block σ 1) hadvance.own
  have hsince₃ : Since σ σ₃ [σ₃.current, σ.block 2] :=
    Since.advance (h.current.symm ▸ h.since) (h.current ▸ own_block σ 1) hadvance
  have hsince₄ := hjumped.since hsince₃ hown (own_block σ 2) fun b hb => List.mem_cons.1 hb
  have htarget := hjumped.target hjoin
  obtain ⟨hsound₅, e₅, hjoin₅, -⟩ := htarget.sealed hjumped.sound hsealed
  have hsince₅ := hsince₄.sealed hjumped.sound htarget (own_block σ 2) hsealed
  have e₃ := hjumped.extends'.trans e₅
  have hall : ∀ q ∈ [σ₁.current] ++ [σ₃.current], ∀ a ∈ σ.spine σ.current,
      a ∈ ((σ₃.terminate (.jump (σ.block 2))).sealed (σ.block 2) d).spine q := by
    intro q hq a ha
    rcases List.mem_pair.1 hq with rfl | rfl
    · rw [((h.extends'.trans hadvance.since.extends').trans e₃).spine hσ₁.used]
      exact hspine₁ a ha
    · rw [e₃.spine hready.sound.used]
      refine hadvance.spine a ?_
      rw [h.spine]
      exact List.mem_cons_of_mem _ ha
  obtain ⟨hready', e₆⟩ := hsound₅.enterSealed hjoin₅ hall (by simp)
  refine ⟨hready', hsince₅.last hsound₅ hjoin₅.spine (own_block σ 2) fun a => id, e₃.trans e₆,
    hjoin₅.script_enter hsound₅ _, rfl, fun e => ?_⟩
  have hne := h.join.ne_of_advance h.ready hready hadvance
  exact Ends.left ((spares_sealed hjumped.sound htarget.exists' hsealed hne).ends
    (hready.stands.ends (.jump (σ.block 2)))) hne e

/-! ## Loops -/

/-- The labels of the blocks of a loop. -/
def loopLabels : List String := ["for.header", "for.body", "for.body_end", "for.end"]

/-- The header of a loop compares the variable with the bound. It stays open for the edge that will
lead back to it, and the block of the body is entered. -/
inductive LoopHead (σ : Plan) (x : SymbolId) (limit : Value) : Plan → Prop
  | intro {σ₁ σ₂ : Plan} {v : Value} {d d' : Draft}
      (enter : σ₁ = ((σ.newBlocks loopLabels).terminate (.jump (σ.block 0))).enter (σ.block 0)
        (σ.spine σ.current))
      (read : (Drafting.read x σ₁.current).on σ₁.record.draft = (.ok v, d))
      (compare : σ₂ = (σ₁.read x v d).emit (.intCompare .less v limit) .bool)
      (sealed : (Drafting.sealBlock (σ.block 1)).on (σ₂.terminate
        (.branch (σ₁.read x v d).next (σ.block 1) (σ.block 3))).record.draft = (.ok (), d')) :
      LoopHead σ x limit (((σ₂.terminate (.branch (σ₁.read x v d).next (σ.block 1)
        (σ.block 3))).sealed (σ.block 1) d').enter (σ.block 1) (σ.block 0 :: σ.spine σ.current))

/-- What holds at the start of the body of a loop. -/
structure LoopBody (σ σ' : Plan) : Prop where
  ready : σ'.Ready
  since : Since σ σ' [σ.block 1, σ.block 0, σ.block 2, σ.block 3]
  current : σ'.current = σ.block 1
  spine : σ'.spine σ'.current = σ.block 1 :: σ.block 0 :: σ.spine σ.current
  bodyEnd : σ'.Awaits (σ.block 2) false []
  exit : σ'.Awaits (σ.block 3) false [σ.block 0]
  header : σ'.known.isSealed (σ.block 0) = false ∧ σ'.builder.preds (σ.block 0) = [σ.current] ∧
    σ'.spine (σ.block 0) = σ.block 0 :: σ.spine σ.current ∧ (σ'.terminator? (σ.block 0)).isSome
  label : (σ'.builder.info (σ.block 0)).label = "for.header"

/-- What holds when the header of a loop has been entered, and goes on to hold in it. -/
structure LoopOpen (σ σ' : Plan) : Prop where
  sound : σ'.Sound
  isOpen : σ'.terminator? σ'.current = none
  current : σ'.current = σ.block 0
  since : Since σ σ' [σ'.current, σ.block 1, σ.block 2, σ.block 3]
  spine : σ'.spine (σ.block 0) = σ.block 0 :: σ.spine σ.current
  isSealed : σ'.known.isSealed (σ.block 0) = false
  preds : σ'.builder.preds (σ.block 0) = [σ.current]
  others : ∀ {i}, i < 4 → i ≠ 0 → σ'.Awaits (σ.block i) false []
  label : (σ'.builder.info (σ.block 0)).label = "for.header"

theorem Ready.loopOpen (hσ : σ.Ready) : LoopOpen σ (((σ.newBlocks loopLabels).terminate
    (.jump (σ.block 0))).enter (σ.block 0) (σ.spine σ.current)) := by
  have hopened : Opened σ _ 4 := hσ.newBlocks loopLabels
  have hjumped := hopened.ready.jump (hopened.awaits (i := 0) (by decide))
  have hheader := hjumped.target (hopened.awaits (i := 0) (by decide))
  rw [hopened.current] at hheader
  have hsince := hjumped.since hopened.since (.inl hopened.current) (own_block σ 0) (by
    intro b hb
    rw [hopened.current]
    exact List.mem_cons.1 hb)
  have hspine : σ.spine σ.current =
      ((σ.newBlocks loopLabels).terminate (.jump (σ.block 0))).spine σ.current :=
    (hsince.extends'.spine hσ.sound.used).symm
  have hopen := hheader.terminator hjumped.sound
  obtain ⟨hsound, -⟩ := hjumped.sound.enterAwaited hheader (s := σ.spine σ.current)
    (by intro q hq a ha; rw [List.mem_singleton.1 hq, ← hspine]; exact ha)
    (by rintro q hq; cases hq; exact hspine)
  constructor
  case sound => exact hsound
  case isOpen => exact hopen
  case current => rfl
  case since =>
    show Since σ _ [σ.block 0, σ.block 1, σ.block 2, σ.block 3]
    exact (hsince.enter hjumped.sound hheader.spine (own_block σ 0) _).mono
      (by simp [List.range_succ])
  case spine => exact spine_enter ..
  case isSealed => exact hheader.isSealed
  case preds => exact hheader.preds
  case others =>
    intro i hi hne
    have hne' : σ.block i ≠ σ.block 0 := block_inj.not.2 hne
    exact (hjumped.others hopened.ready.sound (hopened.awaits hi) hne').enter hne' _
  case label =>
    show (((σ.newBlocks loopLabels).terminate (.jump (σ.block 0))).builder.info _).label = _
    rw [hjumped.extends'.label (hopened.awaits (i := 0) (by decide)).exists',
      label_newBlocks σ _ 0 (by decide)]
    rfl

theorem LoopOpen.exists' {σ₁ : Plan} (h : LoopOpen σ σ₁) :
    (σ.block 0).index < σ₁.builder.blockCount :=
  Nat.lt_of_le_of_lt (Nat.le_add_right _ 3) (h.others (i := 3) (by decide) (by decide)).exists'

/-- Going on in the header keeps this. -/
theorem LoopOpen.goOn {σ₁ σ₂ : Plan} (h : LoopOpen σ σ₁) (hsound : σ₂.Sound)
    (hopen : σ₂.terminator? σ₂.current = none) (hadvance : Advance σ₁ σ₂)
    (hcurrent : σ₂.current = σ₁.current)
    (hsealed : σ₂.known.isSealed σ₁.current = σ₁.known.isSealed σ₁.current)
    (hpreds : σ₂.builder.preds σ₁.current = σ₁.builder.preds σ₁.current) : LoopOpen σ σ₂ where
  sound := hsound
  isOpen := hopen
  current := hcurrent.trans h.current
  since := h.since.advance (h.current ▸ own_block σ 0) hadvance
  spine := by
    rw [← h.current, hadvance.since.extends'.spine h.sound.used, h.current]
    exact h.spine
  isSealed := by
    rw [← h.current, hsealed, h.current]
    exact h.isSealed
  preds := by
    rw [← h.current, hpreds, h.current]
    exact h.preds
  others hi hne := (h.others hi hne).since h.sound hadvance.since
  label := (hadvance.since.extends'.label h.exists').trans h.label

/-- What could be used before the loop can be used in the header. -/
theorem LoopOpen.has {σ₁ : Plan} (h : LoopOpen σ σ₁) (hσ : σ.Sound) {v : Value}
    (hv : σ.Has σ.current v) : σ₁.Has σ₁.current v := by
  obtain ⟨hmem, hlisted⟩ := hv.mono hσ h.since.extends'
  rw [h.since.extends'.spine hσ.used] at hmem
  refine ⟨?_, hlisted⟩
  rw [h.current, h.spine]
  exact List.mem_cons_of_mem _ hmem

/-- The header can end with a branch to the body or out of the loop. -/
theorem LoopOpen.fork {σ₁ σ₂ : Plan} {test : Value} (h : LoopOpen σ σ₁)
    (htest : σ₁.Has σ₁.current test)
    (hσ₂ : σ₂ = σ₁.terminate (.branch test (σ.block 1) (σ.block 3))) :
    Forking σ₁ σ₂ (σ.block 1) (σ.block 3) := by
  have hne : σ.block 1 ≠ σ.block 3 := block_inj.not.2 (by decide)
  have hbody := h.others (i := 1) (by decide) (by decide)
  have hexit := h.others (i := 3) (by decide) (by decide)
  have hlead := mayLeadBoth h.sound hbody hexit
  subst hσ₂
  exact ⟨h.sound.terminate h.isOpen hlead rfl (by simpa [endOperands] using htest),
    extends_terminate h.sound h.isOpen hlead, hbody.terminate (count_pair hne).1,
    hexit.terminate (count_pair hne).2⟩

/-- The header ends with a branch to the body or out of the loop. -/
theorem LoopOpen.branch {σ₁ σ₂ σ₃ : Plan} {test : Value} {d : Draft} (h : LoopOpen σ σ₁)
    (htest : σ₁.Has σ₁.current test)
    (hσ₂ : σ₂ = σ₁.terminate (.branch test (σ.block 1) (σ.block 3)))
    (hsealed : (Drafting.sealBlock (σ.block 1)).on σ₂.record.draft = (.ok (), d))
    (hσ₃ : σ₃ = (σ₂.sealed (σ.block 1) d).enter (σ.block 1) (σ.block 0 :: σ.spine σ.current)) :
    LoopBody σ σ₃ ∧ Extends σ₁ σ₃ ∧ σ₃.record.script σ₃.current = [] ∧ ∀ {ω}, Extends σ₃ ω →
      ω.Ends (σ.block 0) (σ₁.record.script (σ.block 0)) (.branch test (σ.block 1) (σ.block 3)) ∧
        ω.OneWay (σ.block 1) (σ.block 0) := by
  subst hσ₃
  have hne : ∀ {i j}, i ≠ j → σ.block i ≠ σ.block j := fun h => block_inj.not.2 h
  obtain ⟨hsound₂, e₂, hbody₂, hexit₂⟩ := h.fork htest hσ₂
  rw [h.current] at hbody₂ hexit₂
  have hspares₂ : ∀ {c}, c ≠ σ₁.current → c ≠ σ.block 1 → c ≠ σ.block 3 → Spares σ₁ σ₂ c :=
    fun hc h₁ h₃ =>
      hσ₂ ▸ spares_terminate h.sound hc (by simp [Terminator.successors, h₁, h₃])
  have hsince₂ : Since σ σ₂ [σ.block 1, σ.block 0, σ.block 2, σ.block 3] := by
    refine (h.since.quiet e₂ (hσ₂ ▸ Builder.blockCount_terminate ..)
      [σ₁.current, σ.block 1, σ.block 3] ?_ ?_).mono ?_
    · simp [h.current, own_block]
    · intro c hc
      simp only [List.mem_cons, List.not_mem_nil, or_false, not_or] at hc
      exact hspares₂ hc.1 hc.2.1 hc.2.2
    · simp [h.current]
  have hheader : σ₂.spine (σ.block 0) = σ.block 0 :: σ.spine σ.current := by
    rw [hσ₂]
    exact h.spine
  -- The block of the body is sealed and entered.
  obtain ⟨hsound₃, e₃, hbody₃, -⟩ := hbody₂.sealed hsound₂ hsealed
  have hspares₃ : ∀ {c}, c ≠ σ.block 1 → Spares σ₂ (σ₂.sealed (σ.block 1) d) c :=
    fun hc => spares_sealed hsound₂ hbody₂.exists' hsealed hc
  obtain ⟨hready, e₄⟩ := hsound₃.enterBehind hbody₃ hheader.symm
  have hsince₃ := hsince₂.sealed hsound₂ hbody₂ (own_block σ 1) hsealed
  have hended : σ₂.Ends (σ.block 0) (σ₁.record.script (σ.block 0)) _ :=
    hσ₂ ▸ ends_terminate h.sound (.branch test (σ.block 1) (σ.block 3)) h.current rfl
  refine ⟨?_, e₂.trans (e₃.trans e₄), hbody₃.script_enter hsound₃ _, fun e =>
    ⟨Ends.left ((hspares₃ (hne (by decide))).ends hended) (hne (by decide)) e,
      hbody₃.oneWay.mono (e₄.trans e)⟩⟩
  constructor
  case ready => exact hready
  case since => exact hsince₃.enter hsound₃ hbody₃.spine (own_block σ 1) _
  case current => rfl
  case spine => exact spine_enter ..
  case bodyEnd =>
    have hne₂ : σ.block 2 ≠ σ₁.current := h.current ▸ hne (by decide)
    have hwaits := (h.others (i := 2) (by decide) (by decide)).spared e₂
      (hspares₂ hne₂ (hne (by decide)) (hne (by decide)))
    exact (hwaits.spared e₃ (hspares₃ (hne (by decide)))).enter (hne (by decide)) _
  case exit => exact (hexit₂.spared e₃ (hspares₃ (hne (by decide)))).enter (hne (by decide)) _
  case header =>
    have hspared := (hspares₃ (hne (by decide))).trans
      (spares_enter _ (σ.block 0 :: σ.spine σ.current) (hne (i := 0) (j := 1) (by decide)))
    refine ⟨?_, ?_, hspared.spine.trans hheader, ?_⟩
    · rw [hspared.isSealed, hσ₂]
      exact h.isSealed
    · rw [hspared.preds, hσ₂]
      exact (Builder.preds_terminate_of_notMem (by simp [Terminator.successors, block_inj])).trans
        h.preds
    · rw [hspared.terminator, hσ₂, terminator?_terminate h.sound, if_pos h.current.symm]
      rfl
  case label => exact ((e₂.trans (e₃.trans e₄)).label h.exists').trans h.label

/-- Where the parts of the head of a loop stand. Behind `done` in `b` control goes to the header, in
which the variable is compared with the bound. -/
structure LoopHeadAt (σ : Plan) (b : Block) (done : List Event) (x : SymbolId)
    (limit v test : Value) (header body exit : Block) : Prop where
  jumps : σ.Ends b done (.jump header)
  compares : σ.Places header [.read x v] test (.intCompare .less v limit) .bool
  branches : σ.Ends header [.read x v, .inst test] (.branch test body exit)
  toBody : σ.OneWay body header

/-- The variable of a loop is read in the header and compared with the bound. -/
theorem LoopOpen.tested {σ₁ σ₂ : Plan} {x : SymbolId} {limit v : Value} {d : Draft}
    (h : LoopOpen σ σ₁) (hσ : σ.Sound) (hlimit : σ.Has σ.current limit)
    (hread : (Drafting.read x σ₁.current).on σ₁.record.draft = (.ok v, d))
    (compare : σ₂ = (σ₁.read x v d).emit (.intCompare .less v limit) .bool) :
    LoopOpen σ (σ₁.read x v d) ∧ LoopOpen σ σ₂ ∧ σ₂.Has σ₂.current (σ₁.read x v d).next := by
  obtain ⟨hsound, e, hv, hcurrent⟩ := h.sound.read hread
  have hs := Recording.searches_read h.sound.record h.sound.record.current hread
  have hopen₂ : LoopOpen σ (σ₁.read x v d) := by
    refine h.goOn hsound ?_ (advance_read h.sound hread) hcurrent (hs.grows.isSealed _) (hs.preds _)
    rw [hcurrent]
    exact (hs.terminator _).trans h.isOpen
  have hoperands : ∀ u ∈ (Inst.intCompare .less v limit).operands,
      (σ₁.read x v d).Has (σ₁.read x v d).current u := by
    intro u hu
    rcases List.mem_pair.1 hu with rfl | rfl
    · exact hcurrent ▸ hv
    · exact hopen₂.has hσ hlimit
  subst compare
  refine ⟨hopen₂, hopen₂.goOn (hsound.emit hopen₂.isOpen _ hoperands) ?_
    (advance_emit hsound hopen₂.isOpen _ _) rfl rfl ?_, has_emit hsound _ _⟩
  · exact ((info_emit _ _ _ _).2.1).trans hopen₂.isOpen
  · exact (info_emit _ _ _ _).2.2.1

theorem LoopHead.stages {x : SymbolId} {limit : Value} (h : LoopHead σ x limit σ')
    (hσ : σ.Ready) (hlimit : σ.Has σ.current limit) : LoopBody σ σ' ∧
      σ'.record.script σ'.current = [] ∧ ∀ {ω}, Extends σ' ω → ∃ v test,
        LoopHeadAt ω σ.current (σ.record.script σ.current) x limit v test (σ.block 0) (σ.block 1)
          (σ.block 3) ∧ σ.builder.valueCount ≤ test.index := by
  obtain @⟨σ₁, σ₂, v, d, d', enter, hread, compare, hsealed⟩ := h
  have hopen₁ : LoopOpen σ σ₁ := enter ▸ hσ.loopOpen
  obtain ⟨hsound, e, -, -⟩ := hopen₁.sound.read hread
  obtain ⟨hopen₂, hopen₃, htest⟩ := hopen₁.tested hσ.sound hlimit hread compare
  obtain ⟨hbody, e₃, hscript, hended⟩ := hopen₃.branch htest rfl hsealed rfl
  refine ⟨hbody, hscript, fun {ω} e' => ?_⟩
  obtain ⟨hbranches, htoBody⟩ := hended e'
  -- What happens in the header.
  have hopened : Opened σ _ 4 := hσ.newBlocks loopLabels
  have hwaits := hopened.awaits (i := 0) (by decide)
  have hscript₁ : σ₁.record.script (σ.block 0) = [] := by
    rw [enter]
    show (σ.newBlocks loopLabels).record.script (σ.block 0) = []
    exact hwaits.script hopened.ready.sound
  have hread₂ : (σ₁.read x v d).record.script (σ.block 0) = [.read x v] := by
    rw [show (σ₁.read x v d).record.script (σ.block 0) =
        Recording.happen σ₁.record.script σ₁.current (.read x v) (σ.block 0) from rfl,
      hopen₁.current, Recording.happen_self, hscript₁]
    rfl
  have e₂ : Extends σ₂ ω := e₃.trans e'
  have hcompares := hsound.places_emit hopen₂.isOpen (.intCompare .less v limit) .bool
  have hscript₂ := script_emit_self (σ := σ₁.read x v d) (.intCompare .less v limit) .bool
  rw [← compare] at hcompares hscript₂
  rw [hopen₂.current, hread₂] at hcompares hscript₂
  rw [hscript₂] at hbranches
  refine ⟨v, _, ⟨?_, hcompares.mono e₂, hbranches, htoBody⟩,
    hopen₂.since.extends'.valueCount⟩
  have e₁ : Extends σ₁ ω := e.trans ((compare ▸ extends_emit hopen₂.isOpen).trans e₂)
  exact (hopened.stands.ends (.jump (σ.block 0))).left (hσ.sound.current_ne_block 0) (enter ▸ e₁)

theorem LoopHead.loopBody {x : SymbolId} {limit : Value} (h : LoopHead σ x limit σ')
    (hσ : σ.Ready) (hlimit : σ.Has σ.current limit) : LoopBody σ σ' := (h.stages hσ hlimit).1

/-- After the body of a loop the variable is counted up, and the edge back to the header is made.
Behind the loop the last block is entered. -/
inductive LoopTail (σ : Plan) (x : SymbolId) (σ₁ : Plan) : Plan → Prop
  | intro {σ₂ σ₃ σ₄ σ₅ : Plan} {v : Value} {d d₂ d₃ d₄ : Draft}
      (sealEnd : (Drafting.sealBlock (σ.block 2)).on
        (σ₁.terminate (.jump (σ.block 2))).record.draft = (.ok (), d))
      (enter : σ₂ = ((σ₁.terminate (.jump (σ.block 2))).sealed (σ.block 2) d).enter (σ.block 2)
        (σ₁.spine σ₁.current))
      (read : (Drafting.read x σ₂.current).on σ₂.record.draft = (.ok v, d₂))
      (one : σ₃ = (σ₂.read x v d₂).emit (.intConst 1) .int)
      (next : σ₄ = σ₃.emit (.intArith .add v (σ₂.read x v d₂).next) .int)
      (back : σ₅ = (σ₄.terminate (.jump (σ.block 0))).write x σ₃.next)
      (sealHeader : (Drafting.sealBlock (σ.block 0)).on σ₅.record.draft = (.ok (), d₃))
      (sealExit : (Drafting.sealBlock (σ.block 3)).on (σ₅.sealed (σ.block 0) d₃).record.draft =
        (.ok (), d₄)) :
      LoopTail σ x σ₁ (((σ₅.sealed (σ.block 0) d₃).sealed (σ.block 3) d₄).enter (σ.block 3)
        (σ.block 0 :: σ.spine σ.current))

/-- What holds when the block behind the body of a loop has been entered. -/
structure LoopEnd (σ σ₁ σ₂ : Plan) : Prop where
  ready : σ₂.Ready
  extends' : Extends σ₁ σ₂
  current : σ₂.current = σ.block 2
  since : Since σ σ₂ [σ.block 2, σ.block 0, σ.block 3]
  behind : σ.block 0 ∈ σ₂.spine σ₂.current
  header : Spares σ₁ σ₂ (σ.block 0)
  exit : σ₂.Awaits (σ.block 3) false [σ.block 0]
  stands : σ₂.Stands (σ.block 2) []
  toEnd : σ₂.OneWay (σ.block 2) σ₁.current
  jumps : ∀ {ω}, Extends σ₂ ω →
    ω.Ends σ₁.current (σ₁.record.script σ₁.current) (.jump (σ.block 2))

/-- The header stands outside of the body. -/
theorem LoopBody.not_own {σ₀ : Plan} (h : LoopBody σ σ₀) : ¬ σ₀.Own (σ.block 0) := by
  rintro (he | hle)
  · rw [h.current, block_inj] at he
    cases he
  · have hlt : σ.builder.blockCount + 2 < σ₀.builder.blockCount := h.bodyEnd.exists'
    have hle' : σ₀.builder.blockCount ≤ σ.builder.blockCount + 0 := hle
    omega

theorem LoopBody.loopEnd {σ₀ σ₁ : Plan} {d : Draft} (h : LoopBody σ σ₀) (hready : σ₁.Ready)
    (hadvance : Advance σ₀ σ₁) (hsealed : (Drafting.sealBlock (σ.block 2)).on
      (σ₁.terminate (.jump (σ.block 2))).record.draft = (.ok (), d)) :
    LoopEnd σ σ₁ (((σ₁.terminate (.jump (σ.block 2))).sealed (σ.block 2) d).enter (σ.block 2)
      (σ₁.spine σ₁.current)) := by
  have hne : ∀ {i j}, i ≠ j → σ.block i ≠ σ.block j := fun h => block_inj.not.2 h
  have hbodyEnd := h.bodyEnd.since h.ready.sound hadvance.since
  have hexit := h.exit.since h.ready.sound hadvance.since
  have hown : σ.Own σ₁.current :=
    .mono h.since.extends'.blockCount (h.current ▸ own_block σ 1) hadvance.own
  have hsince₁ : Since σ σ₁ [σ₁.current, σ.block 0, σ.block 2, σ.block 3] :=
    Since.advance (h.current.symm ▸ h.since) (h.current ▸ own_block σ 1) hadvance
  have hjumped := hready.jump hbodyEnd
  have hsince₂ := hjumped.since hsince₁ hown (own_block σ 2) fun b hb => List.mem_cons.1 hb
  have hexit₂ := hjumped.others hready.sound hexit (hne (by decide))
  have htarget := hjumped.target hbodyEnd
  have hspares : ∀ {c}, c ≠ σ.block 2 → Spares _ _ c :=
    fun hc => spares_sealed hjumped.sound htarget.exists' hsealed hc
  obtain ⟨hsound₃, e₃, hbodyEnd₃, -⟩ := htarget.sealed hjumped.sound hsealed
  have hsince₃ := hsince₂.sealed hjumped.sound htarget (own_block σ 2) hsealed
  have e : Extends σ₁ _ := hjumped.extends'.trans e₃
  obtain ⟨hready₄, e₄⟩ := hsound₃.enterBehind hbodyEnd₃ (e.spine hready.sound.used).symm
  have hcurrent : σ.block 0 ≠ σ₁.current := fun he => h.not_own (he ▸ hadvance.own)
  constructor
  case ready => exact hready₄
  case extends' => exact e.trans e₄
  case current => rfl
  case since =>
    exact (hsince₃.enter hsound₃ hbodyEnd₃.spine (own_block σ 2) _).mono (by simp)
  case behind =>
    rw [spine_enter]
    refine List.mem_cons_of_mem _ (hadvance.spine _ ?_)
    rw [h.spine]
    simp
  case header =>
    exact ((hjumped.spares hcurrent (hne (by decide))).trans (hspares (hne (by decide)))).trans
      (spares_enter _ _ (hne (by decide)))
  case exit =>
    exact (hexit₂.spared e₃ (hspares (hne (by decide)))).enter (hne (by decide)) _
  case stands => exact hbodyEnd₃.stands hsound₃ hready₄
  case toEnd => exact hbodyEnd₃.oneWay.mono e₄
  case jumps =>
    have hleft := h.bodyEnd.ne_of_advance h.ready hready hadvance
    intro ω e'
    exact Ends.left ((hspares hleft).ends (hready.stands.ends (.jump (σ.block 2)))) hleft e'

/-- What holds when the variable of a loop has been counted up. -/
structure LoopCounted (σ σ₁ : Plan) : Prop where
  ready : σ₁.Ready
  since : Since σ σ₁ [σ₁.current, σ.block 0, σ.block 3]
  own : σ.Own σ₁.current
  ne : σ₁.current ≠ σ.block 0
  behind : σ.block 0 ∈ σ₁.spine σ₁.current
  exit : σ₁.Awaits (σ.block 3) false [σ.block 0]
  header : σ₁.known.isSealed (σ.block 0) = false ∧ σ₁.builder.preds (σ.block 0) = [σ.current] ∧
    σ₁.spine (σ.block 0) = σ.block 0 :: σ.spine σ.current ∧ (σ₁.terminator? (σ.block 0)).isSome

theorem LoopEnd.counted {σ₀ σ₁ σ₂ σ₃ : Plan} {v : Value} (hbody : LoopBody σ σ₀)
    (hadvance : Advance σ₀ σ₁) (h : LoopEnd σ σ₁ σ₂) (hgives : Gives σ₂ σ₃ v)
    (hcurrent : σ₃.current = σ₂.current) : LoopCounted σ σ₃ := by
  have hheader : Spares σ₀ σ₃ (σ.block 0) := by
    refine ((hadvance.since.spares hbody.not_own).trans h.header).trans
      (hgives.advance.since.spares ?_)
    rintro (he | hle)
    · rw [h.current, block_inj] at he
      cases he
    · have hlt : σ.builder.blockCount + 3 < σ₂.builder.blockCount := h.exit.exists'
      have hle' : σ₂.builder.blockCount ≤ σ.builder.blockCount + 0 := hle
      omega
  obtain ⟨hopen, hpreds, hspine, hterm⟩ := hbody.header
  constructor
  case ready => exact hgives.ready
  case since =>
    exact Since.advance (h.current.symm ▸ h.since) (h.current ▸ own_block σ 2) hgives.advance
  case own => exact hcurrent ▸ h.current ▸ own_block σ 2
  case ne =>
    rw [hcurrent, h.current]
    exact block_inj.not.2 (by decide)
  case behind => exact hgives.advance.spine _ h.behind
  case exit => exact h.exit.since h.ready.sound hgives.advance.since
  case header =>
    exact ⟨hheader.isSealed.trans hopen, hheader.preds.trans hpreds, hheader.spine.trans hspine,
      by rw [hheader.terminator]; exact hterm⟩

/-- A further edge leads back to the header. -/
theorem LoopCounted.jumped {σ₁ : Plan} (h : LoopCounted σ σ₁) (hσ : σ.Ready) :
    Jumped σ₁ (σ₁.terminate (.jump (σ.block 0))) (σ.block 0) ∧
      (σ₁.terminate (.jump (σ.block 0))).builder.preds (σ.block 0) = [σ.current, σ₁.current] := by
  have hexists : (σ.block 0).index < σ₁.builder.blockCount :=
    Nat.lt_of_le_of_lt (Nat.le_add_right _ 3) h.exit.exists'
  constructor
  · refine h.ready.jumpTo fun c hc => ?_
    rw [List.mem_singleton.1 hc]
    refine ⟨hexists, h.header.1, ?_, fun _ => .inl h.behind⟩
    have hpos := hσ.sound.record.entry
    exact ne_of_apply_ne Block.index (Nat.ne_of_gt hpos)
  · have hpreds := Builder.preds_terminate (b := σ₁.builder) (t := .jump (σ.block 0)) hexists
    rw [show (σ₁.terminate (.jump (σ.block 0))).builder.preds (σ.block 0) = _ from hpreds,
      show σ₁.builder.preds (σ.block 0) = _ from h.header.2.1]
    simp [Terminator.successors]

/-- What holds when the variable of a loop has been written for the next round. -/
structure LoopWritten (σ σ₁ : Plan) (last : Block) : Prop where
  sound : σ₁.Sound
  since : Since σ σ₁ [σ.block 0, σ.block 3]
  exit : σ₁.Awaits (σ.block 3) false [σ.block 0]
  preds : σ₁.builder.preds (σ.block 0) = [σ.current, last]
  spine : σ₁.spine (σ.block 0) = σ.block 0 :: σ.spine σ.current
  isEnded : (σ₁.terminator? (σ.block 0)).isSome

theorem LoopCounted.written {σ₁ σ₂ : Plan} {x : SymbolId} {v : Value} (h : LoopCounted σ σ₁)
    (hσ : σ.Ready) (hv : σ₁.Has σ₁.current v)
    (back : σ₂ = (σ₁.terminate (.jump (σ.block 0))).write x v) : LoopWritten σ σ₂ σ₁.current := by
  obtain ⟨hjumped, hpreds⟩ := h.jumped hσ
  have hne : σ.block 3 ≠ σ.block 0 := block_inj.not.2 (by decide)
  have hterm : (σ₁.terminate (.jump (σ.block 0))).terminator? σ₁.current =
      some (.jump (σ.block 0)) := by
    rw [terminator?_terminate h.ready.sound, if_pos rfl]
  -- The write comes after the end of the block; the header is still open for it.
  have hsuccessors : ∀ c ∈ (σ₁.terminate (.jump (σ.block 0))).builder.function.successors
      (σ₁.terminate (.jump (σ.block 0))).current,
      (σ₁.terminate (.jump (σ.block 0))).known.isSealed c = false := by
    rw [hjumped.current, Flow.Function.successors_eq hterm]
    intro c hc
    rw [List.mem_singleton.1 hc]
    exact h.header.1
  have hwrite : σ₂.Sound := by
    rw [back]
    refine hjumped.sound.write ?_ hsuccessors
    rw [hjumped.current]
    exact hv.mono h.ready.sound hjumped.extends'
  have hcurrent₂ : σ₂.current = σ₁.current := by
    rw [back]
    exact hjumped.current
  have e₂ : Extends (σ₁.terminate (.jump (σ.block 0))) σ₂ := back ▸ extends_write _ x v
  have hspares₂ : ∀ {c}, c ≠ σ₁.current → Spares (σ₁.terminate (.jump (σ.block 0))) σ₂ c := by
    intro c hc
    rw [back]
    exact spares_write _ x v (hjumped.current ▸ hc)
  have hsince₂ : Since σ σ₂ [σ.block 0, σ.block 3] := by
    have hsince := hjumped.since h.since h.own (own_block σ 0) fun b hb => List.mem_cons.1 hb
    refine hsince.quiet e₂ (back ▸ rfl) [σ₁.current] ?_ ?_
    · intro c hc
      rw [List.mem_singleton.1 hc]
      exact h.own
    · exact fun c hc => hspares₂ fun he => hc (List.mem_singleton.2 he)
  have hexit₂ : σ₂.Awaits (σ.block 3) false [σ.block 0] :=
    (hjumped.others h.ready.sound h.exit hne).spared e₂ (hspares₂ (h.exit.ne_current h.ready.sound))
  have hheader₂ := hspares₂ (Ne.symm h.ne)
  constructor
  case sound => exact hwrite
  case since => exact hsince₂
  case exit => exact hexit₂
  case preds => exact hheader₂.preds.trans hpreds
  case spine => exact hheader₂.spine.trans h.header.2.2.1
  case isEnded =>
    rw [hheader₂.terminator, terminator?_terminate h.ready.sound, if_neg (Ne.symm h.ne)]
    exact h.header.2.2.2

/-- What holds behind a loop. -/
structure LoopLeft (σ σ₁ σ' : Plan) : Prop where
  ready : σ'.Ready
  advance : Advance σ σ'
  extends' : Extends σ₁ σ'
  current : σ'.current = σ.block 3
  script : σ'.record.script σ'.current = []
  toExit : σ'.OneWay (σ.block 3) (σ.block 0)
  toHeader : σ'.known.isSealed (σ.block 0) = true ∧
    σ'.builder.preds (σ.block 0) = σ₁.builder.preds (σ.block 0)
  ends : ∀ {ω b done t}, b ≠ σ.block 0 → b ≠ σ.block 3 → σ₁.Ends b done t → Extends σ' ω →
    ω.Ends b done t

/-- The edge back having been made, the header of a loop can be sealed. -/
theorem LoopWritten.headerSealed {σ₁ : Plan} {last : Block} {d : Draft}
    (h : LoopWritten σ σ₁ last)
    (sealHeader : (Drafting.sealBlock (σ.block 0)).on σ₁.record.draft = (.ok (), d)) :
    (σ₁.sealed (σ.block 0) d).Sound ∧ Extends σ₁ (σ₁.sealed (σ.block 0) d) ∧
      (∀ {c}, c ≠ σ.block 0 → Spares σ₁ (σ₁.sealed (σ.block 0) d) c) ∧
      Since σ (σ₁.sealed (σ.block 0) d) [σ.block 3] ∧
      (σ₁.sealed (σ.block 0) d).Awaits (σ.block 3) false [σ.block 0] ∧
      (σ₁.sealed (σ.block 0) d).known.isSealed (σ.block 0) = true ∧
      (σ₁.sealed (σ.block 0) d).builder.preds (σ.block 0) = σ₁.builder.preds (σ.block 0) := by
  have hne : σ.block 3 ≠ σ.block 0 := block_inj.not.2 (by decide)
  have hexists : (σ.block 0).index < σ₁.builder.blockCount :=
    Nat.lt_of_le_of_lt (Nat.le_add_right _ 3) h.exit.exists'
  obtain ⟨hsound, e, -, hiff, hpreds, hterm⟩ :=
    h.sound.sealBlock hexists (by simp [h.preds]) sealHeader
  obtain ⟨_, hs⟩ := Recording.searches_seal h.sound.record hexists sealHeader
  have hspares : ∀ {c}, c ≠ σ.block 0 → Spares σ₁ (σ₁.sealed (σ.block 0) d) c :=
    fun hc => spares_sealed h.sound hexists sealHeader hc
  have hsince : Since σ (σ₁.sealed (σ.block 0) d) [σ.block 3] := by
    refine h.since.ends e hs.blockCount [σ.block 0] ?_ ?_ ((hiff _).2 (.inr rfl))
      (hterm _ ▸ h.isEnded) fun b hb => List.mem_cons.1 hb
    · intro c hc
      rw [List.mem_singleton.1 hc]
      exact own_block σ 0
    · exact fun c hc => hspares fun he => hc (List.mem_singleton.2 he)
  exact ⟨hsound, e, hspares, hsince, h.exit.spared e (hspares hne), (hiff _).2 (.inr rfl), hpreds _⟩

/-- After a loop the last block is open. -/
theorem LoopWritten.left {σ₁ : Plan} {last : Block} {d d' : Draft} (h : LoopWritten σ σ₁ last)
    (sealHeader : (Drafting.sealBlock (σ.block 0)).on σ₁.record.draft = (.ok (), d))
    (sealExit : (Drafting.sealBlock (σ.block 3)).on (σ₁.sealed (σ.block 0) d).record.draft =
      (.ok (), d')) {σ₂ : Plan} (hσ₂ : σ₂ = ((σ₁.sealed (σ.block 0) d).sealed (σ.block 3) d').enter
        (σ.block 3) (σ.block 0 :: σ.spine σ.current)) : LoopLeft σ σ₁ σ₂ := by
  obtain ⟨hsound₂, e₂, hspares₂, hsince₂, hexit₂, hsealed₂, hpreds₂⟩ := h.headerSealed sealHeader
  obtain ⟨hsound₃, e₃, hexit₃, -⟩ := hexit₂.sealed hsound₂ sealExit
  have hsince₃ := hsince₂.sealed hsound₂ hexit₂ (own_block σ 3) sealExit
  have hspine₃ : σ.block 0 :: σ.spine σ.current =
      ((σ₁.sealed (σ.block 0) d).sealed (σ.block 3) d').spine (σ.block 0) := h.spine.symm
  obtain ⟨hready, e₄⟩ := hsound₃.enterBehind hexit₃ hspine₃
  rw [hσ₂]
  constructor
  case ready => exact hready
  case advance =>
    exact hsince₃.last hsound₃ hexit₃.spine (own_block σ 3) fun a ha => List.mem_cons_of_mem _ ha
  case extends' => exact e₂.trans (e₃.trans e₄)
  case current => rfl
  case script => exact hexit₃.script_enter hsound₃ _
  case toExit => exact hexit₃.oneWay.mono e₄
  case toHeader =>
    exact ⟨(e₃.trans e₄).isSealed hsealed₂, ((e₃.trans e₄).preds hsealed₂).trans hpreds₂⟩
  case ends =>
    intro ω b done t hheader hexit hended e
    refine Ends.left (Spares.ends ?_ hended) hexit e
    exact (hspares₂ hheader).trans (spares_sealed hsound₂ hexit₂.exists' sealExit hexit)

/-- Where the parts of the tail of a loop stand. Behind `done` in `b` control goes to the block
`last`, in which the variable is counted up, and back to the header. -/
structure LoopTailAt (σ : Plan) (b : Block) (done : List Event) (x : SymbolId)
    (v one next : Value) (header last exit : Block) : Prop where
  jumps : σ.Ends b done (.jump last)
  toLast : σ.OneWay last b
  constant : σ.Places last [.read x v] one (.intConst 1) .int
  counts : σ.Places last [.read x v, .inst one] next (.intArith .add v one) .int
  returns : σ.Ends last [.read x v, .inst one, .inst next, .write x next] (.jump header)
  toExit : σ.OneWay exit header
  toHeader : ∃ q, σ.builder.preds header = [q, last]

/-- A read where lowering stands. -/
theorem Stands.read {b : Block} {done : List Event} (h : σ.Stands b done) {x : SymbolId} {v : Value}
    {d : Draft} (hread : (Drafting.read x σ.current).on σ.record.draft = (.ok v, d)) :
    (σ.read x v d).Stands b (done ++ [.read x v]) := by
  obtain ⟨hready, rfl, rfl⟩ := h
  exact ⟨hready.read hread, (hready.sound.read hread).2.2.2, Recording.happen_self ..⟩

/-- Behind the body the variable of a loop is read and counted up. -/
theorem LoopEnd.counts {σ₁ σ₂ σ₃ σ₄ : Plan} {x : SymbolId} {v : Value} {d : Draft}
    (h : LoopEnd σ σ₁ σ₂) (hread : (Drafting.read x σ₂.current).on σ₂.record.draft = (.ok v, d))
    (hone : σ₃ = (σ₂.read x v d).emit (.intConst 1) .int)
    (hnext : σ₄ = σ₃.emit (.intArith .add v (σ₂.read x v d).next) .int) :
    Emits (σ₂.read x v d) σ₃ (σ.block 2) [.read x v] (σ₂.read x v d).next (.intConst 1) .int ∧
      Emits σ₃ σ₄ (σ.block 2) [.read x v, .inst (σ₂.read x v d).next] σ₃.next
        (.intArith .add v (σ₂.read x v d).next) .int ∧
      Gives σ₂ σ₄ σ₃.next := by
  have hgives := gives_read h.ready hread
  have h₁ := (h.stands.read hread).emit hone (by simp [Inst.operands])
  have h₂ := h₁.stands.emit hnext fun u hu => by
    rcases List.mem_pair.1 hu with rfl | rfl
    · exact h₁.gives.keeps hgives.ready hgives.has
    · exact h₁.gives.has
  exact ⟨h₁, h₂, hgives.trans (h₁.gives.trans h₂.gives)⟩

/-- After a loop the last block is open. -/
theorem LoopTail.stages {σ₀ σ₁ : Plan} {x : SymbolId} (htail : LoopTail σ x σ₁ σ')
    (h : LoopBody σ σ₀) (hσ : σ.Ready) (hready : σ₁.Ready) (hadvance : Advance σ₀ σ₁) :
    σ'.Ready ∧ Advance σ σ' ∧ Extends σ₁ σ' ∧ σ'.current = σ.block 3 ∧
      σ'.record.script σ'.current = [] ∧ ∀ {ω}, Extends σ' ω → ∃ v one next,
        LoopTailAt ω σ₁.current (σ₁.record.script σ₁.current) x v one next (σ.block 0) (σ.block 2)
          (σ.block 3) ∧ σ₁.builder.valueCount ≤ one.index ∧ σ₁.builder.valueCount ≤ next.index ∧
            v ≠ one := by
  obtain @⟨σ₂, σ₃, σ₄, σ₅, v, d, d₂, d₃, d₄, sealEnd, enter, hread, hone, hnext, back, sealHeader,
    sealExit⟩ := htail
  have hend : LoopEnd σ σ₁ σ₂ := enter ▸ h.loopEnd hready hadvance sealEnd
  have hgives₁ := gives_read hend.ready hread
  have eread := hend.extends'.trans hgives₁.advance.since.extends'
  obtain ⟨h₁, h₂, hgives⟩ := hend.counts hread hone hnext
  have hcounted := hend.counted h hadvance hgives (h₂.stands.current.trans hend.current.symm)
  have hwritten := hcounted.written hσ h₂.gives.has back
  have hleft := hwritten.left sealHeader sealExit rfl
  have e₄ : Extends σ₄ _ := (hcounted.jumped hσ).1.extends'.trans
    ((back ▸ extends_write _ x _).trans hleft.extends')
  have e₃ := h₂.gives.advance.since.extends'.trans e₄
  have e₂ := hgives₁.advance.since.extends'.trans (h₁.gives.advance.since.extends'.trans e₃)
  refine ⟨hleft.ready, hleft.advance, hend.extends'.trans e₂, hleft.current, hleft.script,
    fun {ω} e => ⟨v, _, _, ⟨hend.jumps (e₂.trans e), hend.toEnd.mono (e₂.trans e),
      h₁.places.mono (e₃.trans e), h₂.places.mono (e₄.trans e), ?_, hleft.toExit.mono e, ?_⟩,
      eread.valueCount, (eread.trans h₁.gives.advance.since.extends').valueCount, ?_⟩⟩
  case refine_3 =>
    exact ne_of_apply_ne Value.index (Nat.ne_of_lt (hgives₁.ready.sound.lt_of_has hgives₁.has))
  case refine_2 =>
    obtain ⟨hsealed, hpreds⟩ := hleft.toHeader
    exact ⟨σ.current, by rw [e.preds hsealed, hpreds, hwritten.preds, h₂.stands.current]⟩
  refine hleft.ends (block_inj.not.2 (by decide)) (block_inj.not.2 (by decide)) ?_ e
  -- The write comes after the end of the block.
  have hended := h₂.stands.ends (.jump (σ.block 0))
  have hcurrent : (σ₄.terminate (.jump (σ.block 0))).current = σ.block 2 :=
    (Builder.current_terminate ..).trans h₂.stands.current
  rw [back]
  refine ⟨?_, hended.terminator⟩
  show Recording.happen _ (σ₄.terminate (.jump (σ.block 0))).current _ _ = _
  rw [hcurrent, Recording.happen_self, hended.script]
  rfl

theorem LoopBody.tail {σ₀ σ₁ : Plan} {x : SymbolId} (h : LoopBody σ σ₀) (hσ : σ.Ready)
    (hready : σ₁.Ready) (hadvance : Advance σ₀ σ₁) (htail : LoopTail σ x σ₁ σ') :
    σ'.Ready ∧ Advance σ σ' := by
  obtain ⟨hready', hadvance', -⟩ := htail.stages h hσ hready hadvance
  exact ⟨hready', hadvance'⟩

end Plan

end Abacus.Lowering
