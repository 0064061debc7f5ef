import Abacus.Lowering.Expression
import Abacus.Proofs.Lowering.Triples

/-!
# How values are made

For each part of the lowering of expressions that takes values and gives one, the plans that it goes
through (`Coerced`, `Tested`, `Divided`, `Combined`, `Negated`, `Invoked`), and that its result can be
used from then on (`Plan.Gives`).
-/

namespace Abacus.Lowering

open Abacus.Flow (Value Block Ty Inst Terminator Builder Arith Compare)

namespace Plan

/-- The value that is made next. -/
abbrev next (σ : Plan) : Value := ⟨σ.builder.valueCount⟩

/-- The block that is made next. -/
abbrev nextBlock (σ : Plan) : Block := ⟨σ.builder.blockCount⟩

/-- A part of lowering ends in an open block that has the value. -/
structure Gives (σ σ' : Plan) (v : Value) : Prop where
  ready : σ'.Ready
  advance : Advance σ σ'
  has : σ'.Has σ'.current v

section

variable {σ σ₁ σ₂ : Plan} {v w : Value}

theorem gives_emit (hσ : σ.Ready) (inst : Inst) (ty : Ty)
    (hoperands : ∀ u ∈ inst.operands, σ.Has σ.current u) : Gives σ (σ.emit inst ty) σ.next :=
  ⟨hσ.emit ty hoperands, advance_emit hσ.sound hσ.isOpen inst ty, has_emit hσ.sound inst ty⟩

theorem Gives.trans (h₁ : Gives σ σ₁ v) (h₂ : Gives σ₁ σ₂ w) : Gives σ σ₂ w :=
  ⟨h₂.ready, h₁.advance.trans h₂.advance, h₂.has⟩

/-- What could be used before can be used afterwards. -/
theorem Gives.keeps (h : Gives σ σ₁ v) (hσ : σ.Ready) (hw : σ.Has σ.current w) :
    σ₁.Has σ₁.current w := h.advance.has hσ.sound hw

end

/-- Lowering has come to the open block `b`, behind the events `done`. -/
structure Stands (σ : Plan) (b : Block) (done : List Event) : Prop where
  ready : σ.Ready
  current : σ.current = b
  script : σ.record.script b = done

/-- An instruction has been added where lowering stood. -/
structure Emits (σ σ' : Plan) (b : Block) (done : List Event) (v : Value) (inst : Inst) (ty : Ty) :
    Prop where
  gives : Gives σ σ' v
  stands : σ'.Stands b (done ++ [.inst v])
  places : σ'.Places b done v inst ty

section

variable {σ σ' : Plan} {b : Block} {done : List Event}

theorem Ready.stands (h : σ.Ready) : σ.Stands σ.current (σ.record.script σ.current) := ⟨h, rfl, rfl⟩

theorem Stands.emit (h : σ.Stands b done) {inst : Inst} {ty : Ty} (heq : σ' = σ.emit inst ty)
    (hoperands : ∀ u ∈ inst.operands, σ.Has σ.current u) :
    Emits σ σ' b done σ.next inst ty := by
  obtain ⟨hready, rfl, rfl⟩ := h
  subst heq
  exact ⟨gives_emit hready inst ty hoperands, ⟨hready.emit ty hoperands, rfl,
    script_emit_self inst ty⟩, hready.sound.places_emit hready.isOpen inst ty⟩

/-- A block that waited is entered. -/
theorem Awaits.stands {closed : Bool} {sources s : List Block} (h : σ.Awaits b closed sources)
    (hσ : σ.Sound) (henter : (σ.enter b s).Ready) : (σ.enter b s).Stands b [] :=
  ⟨henter, rfl, h.script_enter hσ s⟩

/-- New blocks change nothing where lowering stands. -/
theorem Opened.stands {count : Nat} (h : Opened σ σ' count) :
    σ'.Stands σ.current (σ.record.script σ.current) :=
  ⟨h.ready, h.current, (h.spares _).script⟩

/-- The block ends where lowering stands. -/
theorem Stands.ends (h : σ.Stands b done) (t : Terminator) : (σ.terminate t).Ends b done t :=
  ends_terminate h.ready.sound t h.current h.script

end

/-! ## Conversions -/

/-- A value is converted to a type. -/
inductive Coerced (σ : Plan) (v : Value) (ty : Ty) : Value → Plan → Prop
  | same : σ.builder.ty v = ty → Coerced σ v ty v σ
  | toFloat : σ.builder.ty v = .int → ty = .float →
      Coerced σ v ty σ.next (σ.emit (.intToFloat v) .float)
  | toInt : σ.builder.ty v = .float → ty = .int →
      Coerced σ v ty σ.next (σ.emit (.floatToInt v) .int)

theorem Coerced.gives {σ σ' : Plan} {v v' : Value} {ty : Ty} (h : Coerced σ v ty v' σ')
    (hσ : σ.Ready) (hv : σ.Has σ.current v) : Gives σ σ' v' := by
  cases h with
  | same => exact ⟨hσ, .rfl' σ, hv⟩
  | toFloat => exact gives_emit hσ _ _ (by simpa [Inst.operands] using hv)
  | toInt => exact gives_emit hσ _ _ (by simpa [Inst.operands] using hv)

/-- A value is compared with 0. -/
inductive Tested (σ : Plan) (v : Value) : Value → Plan → Prop
  | int {σ₁} : σ.builder.ty v = .int → σ₁ = σ.emit (.intConst 0) .int →
      Tested σ v σ₁.next (σ₁.emit (.intCompare .notEqual v σ.next) .bool)
  | float {σ₁} : σ.builder.ty v = .float → σ₁ = σ.emit (.floatConst 0.0) .float →
      Tested σ v σ₁.next (σ₁.emit (.floatCompare .notEqual v σ.next) .bool)

/-- A constant and an instruction that reads it together with a value that is there. -/
theorem gives_withConst {σ : Plan} {v : Value} (hσ : σ.Ready) (hv : σ.Has σ.current v)
    {const inst : Inst} {constTy ty : Ty} (hconst : const.operands = [])
    (hinst : inst.operands = [v, σ.next] ∨ inst.operands = [σ.next, v]) :
    Gives σ ((σ.emit const constTy).emit inst ty) (σ.emit const constTy).next := by
  have h₁ : Gives σ (σ.emit const constTy) σ.next := gives_emit hσ _ _ (by simp [hconst])
  refine h₁.trans (gives_emit h₁.ready _ _ fun u hu => ?_)
  have hu' : u = v ∨ u = σ.next := by
    rcases hinst with hinst | hinst
    · exact List.mem_pair.1 (hinst ▸ hu)
    · exact (List.mem_pair.1 (hinst ▸ hu)).symm
  rcases hu' with rfl | rfl
  · exact h₁.keeps hσ hv
  · exact h₁.has

theorem Tested.gives {σ σ' : Plan} {v v' : Value} (h : Tested σ v v' σ') (hσ : σ.Ready)
    (hv : σ.Has σ.current v) : Gives σ σ' v' := by
  cases h with
  | int _ h₁ => exact h₁ ▸ gives_withConst hσ hv rfl (.inl rfl)
  | float _ h₁ => exact h₁ ▸ gives_withConst hσ hv rfl (.inl rfl)

end Plan

namespace Lower

variable {σ : Plan} {s : State}

theorem leads_emit (inst : Inst) (ty : Ty) : Leads (emit inst ty) σ s fun v σ' s' =>
    v = σ.next ∧ σ' = σ.emit inst ty ∧ s' = { s with draft := σ'.record.draft } :=
  leads_onDraft (Drafting.leads_emit inst ty σ) fun _ _ h => ⟨h.1, h.2, rfl⟩

theorem leads_typeOf (v : Value) : Leads (typeOf v) σ s fun ty σ' s' =>
    ty = σ.builder.ty v ∧ σ' = σ ∧ s' = { s with draft := σ'.record.draft } :=
  leads_onDraft (Drafting.leads_typeOf v σ) fun _ _ h => ⟨h.1, h.2, rfl⟩

theorem leads_coerce (v : Value) (ty : Ty) : Leads (coerce v ty) σ s fun v' σ' s' =>
    Plan.Coerced σ v ty v' σ' ∧ s' = { s with draft := σ'.record.draft } := by
  apply Leads.bind (leads_typeOf v)
  rintro source σ₁ s₁ ⟨hty, rfl, rfl⟩
  split
  · next heq => exact leads_pure ⟨.same (hty.symm.trans heq), rfl⟩
  · split
    · apply Leads.mono (leads_emit _ _)
      rintro v' σ' s' ⟨rfl, rfl, rfl⟩
      exact ⟨.toFloat hty.symm rfl, rfl⟩
    · apply Leads.mono (leads_emit _ _)
      rintro v' σ' s' ⟨rfl, rfl, rfl⟩
      exact ⟨.toInt hty.symm rfl, rfl⟩
    · exact leads_throw _

theorem leads_truthy (v : Value) : Leads (truthy v) σ s fun v' σ' s' =>
    Plan.Tested σ v v' σ' ∧ s' = { s with draft := σ'.record.draft } := by
  apply Leads.bind (leads_typeOf v)
  rintro source σ₁ s₁ ⟨hty, rfl, rfl⟩
  split
  · apply Leads.bind (leads_emit _ _)
    rintro zero σ₂ s₂ ⟨rfl, hσ₂, rfl⟩
    apply Leads.mono (leads_emit _ _)
    rintro v' σ' s' ⟨rfl, rfl, rfl⟩
    exact ⟨.int hty.symm hσ₂, rfl⟩
  · apply Leads.bind (leads_emit _ _)
    rintro zero σ₂ s₂ ⟨rfl, hσ₂, rfl⟩
    apply Leads.mono (leads_emit _ _)
    rintro v' σ' s' ⟨rfl, rfl, rfl⟩
    exact ⟨.float hty.symm hσ₂, rfl⟩
  · exact leads_throw _

end Lower
/-! ## Division -/

namespace Plan

/-- A division of integers. The divisor is compared with 0; a block of its own raises the fault, and
another one divides. -/
inductive Divided (config : FaultConfig) (σ : Plan) (lhs rhs : Value) : Value → Plan → Prop
  | intro {σ₁ σ₂ σ₃ σ₄ : Plan}
      (test : σ₁ = (σ.newBlocks ["div.zero", "div.ok"]).emit (.intConst 0) .int)
      (compare : σ₂ = σ₁.emit (.intCompare .equal rhs σ.next) .bool)
      (fork : SealsBoth (σ₂.terminate (.branch σ₁.next (σ.block 0) (σ.block 1)))
        (σ.block 0) (σ.block 1) σ₃)
      (raise : σ₄ = ((σ₃.enter (σ.block 0) (σ.spine σ.current)).emit
        (.faultAlloc config.code config.typeId) .fault).terminate (.raise σ₃.next)) :
      Divided config σ lhs rhs σ₄.next
        ((σ₄.enter (σ.block 1) (σ.spine σ.current)).emit (.intArith .div lhs rhs) .int)

/-- Where the parts of a division stand. Behind `done` in `b` the divisor is compared with 0; the
fault is raised in the block `raise`, and the quotient is found in the block `okay`. -/
structure DivisionAt (config : FaultConfig) (σ : Plan) (b : Block) (done : List Event)
    (lhs rhs zero isZero fault quotient : Value) (raise okay : Block) : Prop where
  constant : σ.Places b done zero (.intConst 0) .int
  compares : σ.Places b (done ++ [.inst zero]) isZero (.intCompare .equal rhs zero) .bool
  branches : σ.Ends b (done ++ [.inst zero, .inst isZero]) (.branch isZero raise okay)
  toRaise : σ.OneWay raise b
  allocates : σ.Places raise [] fault (.faultAlloc config.code config.typeId) .fault
  raises : σ.Ends raise [.inst fault] (.raise fault)
  toOkay : σ.OneWay okay b
  divides : σ.Places okay [] quotient (.intArith .div lhs rhs) .int

/-- The divisor is compared with 0 behind the new blocks. -/
theorem Ready.testDivisor {σ σ₁ σ₂ : Plan} {rhs : Value} (hσ : σ.Ready)
    (hrhs : σ.Has σ.current rhs)
    (test : σ₁ = (σ.newBlocks ["div.zero", "div.ok"]).emit (.intConst 0) .int)
    (compare : σ₂ = σ₁.emit (.intCompare .equal rhs σ.next) .bool) :
    Emits (σ.newBlocks ["div.zero", "div.ok"]) σ₁ σ.current (σ.record.script σ.current) σ.next
        (.intConst 0) .int ∧
      Emits σ₁ σ₂ σ.current (σ.record.script σ.current ++ [.inst σ.next]) σ₁.next
        (.intCompare .equal rhs σ.next) .bool := by
  have hopened : Opened σ (σ.newBlocks ["div.zero", "div.ok"]) 2 := hσ.newBlocks _
  have hnext : (σ.newBlocks ["div.zero", "div.ok"]).next = σ.next :=
    congrArg Value.mk hopened.valueCount
  have hzero := hopened.stands.emit test (by simp [Inst.operands])
  rw [hnext] at hzero
  refine ⟨hzero, hzero.stands.emit compare fun u hu => ?_⟩
  rcases List.mem_pair.1 hu with rfl | rfl
  · exact hzero.gives.keeps hopened.ready (hopened.has hσ hrhs)
  · exact hzero.gives.has

/-- A division is gone through in order, and its parts stand where they belong in all plans that
extend the last one. -/
theorem Divided.stages {config : FaultConfig} {σ σ' : Plan} {lhs rhs quotient : Value}
    (h : Divided config σ lhs rhs quotient σ') (hσ : σ.Ready) (hlhs : σ.Has σ.current lhs)
    (hrhs : σ.Has σ.current rhs) : Gives σ σ' quotient ∧
      σ'.record.script σ'.current = [.inst quotient] ∧
      ∀ {ω}, Extends σ' ω → ∃ zero isZero fault, DivisionAt config ω σ.current
        (σ.record.script σ.current) lhs rhs zero isZero fault quotient (σ.block 0) σ'.current ∧
        ∀ u ∈ [zero, isZero, fault, quotient], σ.builder.valueCount ≤ u.index := by
  obtain @⟨σ₁, σ₂, σ₃, σ₄, test, compare, fork, raise⟩ := h
  have hopened : Opened σ (σ.newBlocks ["div.zero", "div.ok"]) 2 := hσ.newBlocks _
  obtain ⟨hzero, hisZero⟩ := hσ.testDivisor hrhs test compare
  have hcompare := hzero.gives.trans hisZero.gives
  obtain ⟨hparted, e₃⟩ := hopened.branch hσ hcompare.ready hcompare.advance hcompare.has
    hisZero.stands.current Nat.zero_lt_two Nat.one_lt_two Nat.zero_ne_one fork
  -- The block that raises the fault.
  obtain ⟨hraise, eraise⟩ := hparted.sound.enterBehind hparted.atFirst hparted.spine.symm
  have hfault : Emits _ _ _ _ σ₃.next (.faultAlloc config.code config.typeId) .fault :=
    (hparted.atFirst.stands hparted.sound hraise).emit rfl (by simp [Inst.operands])
  obtain ⟨hsound₄, hclose⟩ := hfault.gives.ready.close (t := .raise σ₃.next) rfl rfl fun u hu =>
    List.mem_singleton.1 hu ▸ hfault.gives.has
  have hraises := hfault.stands.ends (.raise σ₃.next)
  rw [← raise] at hsound₄ hclose hraises
  have hclosed : Since (σ₃.enter (σ.block 0) (σ.spine σ.current)) σ₄ [] :=
    hfault.gives.advance.finish hclose
  have hsince : Since σ σ₄ [σ.block 1] := by
    refine hparted.since.finish hparted.sound hparted.atFirst.spine (own_block σ 0) hclosed ?_
    simp [List.range_succ]
  -- The block that divides.
  have hne : σ.block 0 ≠ σ.block 1 := block_inj.not.2 (by decide)
  have hokay := (hparted.atSecond.enter hne.symm _).since hraise.sound hclosed
  obtain ⟨hdivide, edivide⟩ := hsound₄.enterBehind hokay (hsince.extends'.spine hσ.sound.used).symm
  have hadvance := hsince.last hsound₄ hokay.spine (own_block σ 1) fun a => id
  have hquotient : Emits _ _ _ _ _ (.intArith .div lhs rhs) .int :=
    (hokay.stands hsound₄ hdivide).emit rfl fun u hu => by
      rcases List.mem_pair.1 hu with rfl | rfl
      · exact hadvance.has hσ.sound hlhs
      · exact hadvance.has hσ.sound hrhs
  refine ⟨⟨hquotient.gives.ready, hadvance.trans hquotient.gives.advance, hquotient.gives.has⟩,
    hquotient.stands.script, fun {ω} e => ?_⟩
  have edivide' := edivide.trans (hquotient.gives.advance.since.extends'.trans e)
  have eclose := hclose.extends'.trans edivide'
  have eraise' := hfault.gives.advance.since.extends'.trans eclose
  have e₂ : Extends σ₂ ω := e₃.trans (eraise.trans eraise')
  refine ⟨σ.next, σ₁.next, σ₃.next, ?_, ?_⟩
  case refine_2 =>
    simp only [List.forall_mem_cons, List.not_mem_nil, false_implies, implies_true, and_true]
    have h₁ := (hopened.since.extends'.trans hzero.gives.advance.since.extends').valueCount
    exact ⟨Nat.le_refl _, h₁, hparted.since.extends'.valueCount,
      (hsince.extends'.trans edivide).valueCount⟩
  constructor
  case constant => exact hzero.places.mono (hisZero.gives.advance.since.extends'.trans e₂)
  case compares => exact hisZero.places.mono e₂
  case branches =>
    refine Ends.left ?_ (hσ.sound.current_ne_block 0) eraise'
    have hended := hparted.ended
    rw [hisZero.stands.script, List.append_assoc] at hended
    exact hended
  case toRaise => exact hparted.atFirst.oneWay.mono (eraise.trans eraise')
  case allocates => exact hfault.places.mono eclose
  case raises => exact hraises.left hne (hquotient.gives.advance.since.extends'.trans e)
  case toOkay => exact hokay.oneWay.mono edivide'
  case divides => exact hquotient.places.mono e

theorem Divided.gives {config : FaultConfig} {σ σ' : Plan} {lhs rhs quotient : Value}
    (h : Divided config σ lhs rhs quotient σ') (hσ : σ.Ready) (hlhs : σ.Has σ.current lhs)
    (hrhs : σ.Has σ.current rhs) : Gives σ σ' quotient := (h.stages hσ hlhs hrhs).1

end Plan
namespace Drafting

/-- Two blocks that are sealed one after the other. -/
theorem leads_sealBoth {α : Type} {first second : Block} {next : Drafting α} {σ : Plan}
    {post : α → Plan → Prop}
    (hnext : ∀ σ', Plan.SealsBoth σ first second σ' → Leads next σ' post) :
    Leads (do sealBlock first; sealBlock second; next) σ post := by
  apply Leads.bind (leads_sealBlock first σ)
  rintro ⟨⟩ σ₁ ⟨d₁, h₁, rfl⟩
  apply Leads.bind (leads_sealBlock second _)
  rintro ⟨⟩ σ₂ ⟨d₂, h₂, rfl⟩
  exact hnext _ (.intro h₁ h₂)

theorem leads_checkedDiv (config : FaultConfig) (lhs rhs : Value) (σ : Plan) :
    Leads (checkedDiv config lhs rhs) σ fun r σ' => Plan.Divided config σ lhs rhs r.1 σ' := by
  apply Leads.bind (leads_currentBlock σ)
  rintro check σ ⟨rfl, rfl⟩
  apply Leads.bind (leads_newBlock "div.zero" _)
  rintro zero _ ⟨rfl, rfl⟩
  apply Leads.bind (leads_newBlock "div.ok" _)
  rintro okay _ ⟨rfl, rfl⟩
  rw [show (⟨(σ.newBlock "div.zero").builder.blockCount⟩ : Block) = σ.block 1 from
    σ.block_newBlock "div.zero" 0]
  apply Leads.bind (leads_emit (.intConst 0) .int _)
  rintro value σ₁ ⟨rfl, test⟩
  apply Leads.bind (leads_emit _ _ σ₁)
  rintro isZero σ₂ ⟨rfl, compare⟩
  apply Leads.bind (leads_terminate _ σ₂)
  rintro ⟨⟩ _ rfl
  apply leads_sealBoth
  rintro σ₃ fork
  apply Leads.bind (leads_setCurrent _ σ₃ (σ.spine σ.current))
  rintro ⟨⟩ _ rfl
  apply Leads.bind (leads_emit _ _ _)
  rintro fault _ ⟨rfl, rfl⟩
  apply Leads.bind (leads_terminate _ _)
  rintro ⟨⟩ σ₄ raise
  apply Leads.bind (leads_setCurrent _ σ₄ (σ.spine σ.current))
  rintro ⟨⟩ _ rfl
  apply Leads.bind (leads_emit _ _ _)
  rintro quotient _ ⟨rfl, rfl⟩
  apply Leads.mono (leads_pure _ _)
  rintro _ _ ⟨rfl, rfl⟩
  exact .intro test compare fork raise

end Drafting

/-! ## Operators -/

namespace Plan

/-- An operator is applied to two values of the type in which they meet. The truth value tells
whether a division of integers is made. -/
inductive Computed (config : FaultConfig) (σ : Plan) (op : InfixOp) (ty : Ty) (lhs rhs : Value) :
    Bool → Value → Plan → Prop
  | floatCompare {cmp σ₁} : operation op = .inr cmp → ty = .float →
      σ₁ = σ.emit (.floatCompare cmp lhs rhs) .bool →
      Computed config σ op ty lhs rhs false σ₁.next (σ₁.emit (.boolToInt σ.next) .int)
  | intCompare {cmp σ₁} : operation op = .inr cmp → ty ≠ .float →
      σ₁ = σ.emit (.intCompare cmp lhs rhs) .bool →
      Computed config σ op ty lhs rhs false σ₁.next (σ₁.emit (.boolToInt σ.next) .int)
  | floatArith {arith} : operation op = .inl arith → ty = .float →
      Computed config σ op ty lhs rhs false σ.next (σ.emit (.floatArith arith lhs rhs) .float)
  | divide {quotient σ'} : operation op = .inl .div → ty ≠ .float →
      Divided config σ lhs rhs quotient σ' → Computed config σ op ty lhs rhs true quotient σ'
  | intArith {arith} : operation op = .inl arith → arith ≠ .div → ty ≠ .float →
      Computed config σ op ty lhs rhs false σ.next (σ.emit (.intArith arith lhs rhs) .int)

theorem Computed.gives {config : FaultConfig} {σ σ' : Plan} {op : InfixOp} {ty : Ty}
    {lhs rhs v : Value} {divides : Bool} (h : Computed config σ op ty lhs rhs divides v σ')
    (hσ : σ.Ready) (hlhs : σ.Has σ.current lhs) (hrhs : σ.Has σ.current rhs) : Gives σ σ' v := by
  have hoperands : ∀ u ∈ [lhs, rhs], σ.Has σ.current u := by
    intro u hu
    rcases List.mem_pair.1 hu with rfl | rfl
    · exact hlhs
    · exact hrhs
  have hcompared : ∀ {inst : Inst}, inst.operands = [lhs, rhs] →
      Gives σ ((σ.emit inst .bool).emit (.boolToInt σ.next) .int) (σ.emit inst .bool).next := by
    intro inst hinst
    have h₁ : Gives σ (σ.emit inst .bool) σ.next := gives_emit hσ _ _ (hinst ▸ hoperands)
    refine h₁.trans (gives_emit h₁.ready _ _ fun u hu => ?_)
    rw [List.mem_singleton.1 hu]
    exact h₁.has
  cases h with
  | floatCompare _ _ h₁ => exact h₁ ▸ hcompared rfl
  | intCompare _ _ h₁ => exact h₁ ▸ hcompared rfl
  | floatArith => exact gives_emit hσ _ _ hoperands
  | divide _ _ h => exact h.gives hσ hlhs hrhs
  | intArith => exact gives_emit hσ _ _ hoperands

/-- An operator is applied to two values, which are converted to the type in which they meet. -/
inductive Combined (config : FaultConfig) (σ : Plan) (op : InfixOp) (lhs rhs : Value) :
    Bool → Value → Plan → Prop
  | intro {ty l r σ₁ σ₂ divides v σ'} : ty = Lower.meet (σ.builder.ty lhs) (σ.builder.ty rhs) →
      Coerced σ lhs ty l σ₁ → Coerced σ₁ rhs ty r σ₂ →
      Computed config σ₂ op ty l r divides v σ' → Combined config σ op lhs rhs divides v σ'

theorem Combined.gives {config : FaultConfig} {σ σ' : Plan} {op : InfixOp} {lhs rhs v : Value}
    {divides : Bool} (h : Combined config σ op lhs rhs divides v σ') (hσ : σ.Ready)
    (hlhs : σ.Has σ.current lhs) (hrhs : σ.Has σ.current rhs) : Gives σ σ' v := by
  obtain ⟨-, hleft, hright, hresult⟩ := h
  have h₁ := hleft.gives hσ hlhs
  have h₂ := hright.gives h₁.ready (h₁.keeps hσ hrhs)
  have h₃ := hresult.gives h₂.ready (h₂.keeps h₁.ready h₁.has) h₂.has
  exact h₁.trans (h₂.trans h₃)

/-- A value is subtracted from 0. -/
inductive Negated (σ : Plan) (v : Value) : Value → Plan → Prop
  | float {σ₁} : σ.builder.ty v = .float → σ₁ = σ.emit (.floatConst 0.0) .float →
      Negated σ v σ₁.next (σ₁.emit (.floatArith .sub σ.next v) .float)
  | int {σ₁} : σ.builder.ty v ≠ .float → σ₁ = σ.emit (.intConst 0) .int →
      Negated σ v σ₁.next (σ₁.emit (.intArith .sub σ.next v) .int)

theorem Negated.gives {σ σ' : Plan} {v v' : Value} (h : Negated σ v v' σ') (hσ : σ.Ready)
    (hv : σ.Has σ.current v) : Gives σ σ' v' := by
  cases h with
  | float _ h₁ => exact h₁ ▸ gives_withConst hσ hv rfl (.inr rfl)
  | int _ h₁ => exact h₁ ▸ gives_withConst hσ hv rfl (.inr rfl)

end Plan
namespace Lower

variable {σ : Plan} {s : State}

theorem leads_infixOp (config : FaultConfig) (op : InfixOp) (lhs rhs : Value) :
    Leads (infixOp config op lhs rhs) σ s fun v σ' s' => ∃ divides,
      Plan.Combined config σ op lhs rhs divides v σ' ∧
        s' = ⟨s.symbols, σ'.record.draft, s.mayFault || divides⟩ := by
  apply Leads.bind (leads_typeOf lhs)
  rintro lty σ _ ⟨rfl, rfl, rfl⟩
  apply Leads.bind (leads_typeOf rhs)
  rintro rty σ _ ⟨rfl, rfl, rfl⟩
  apply Leads.bind (leads_coerce lhs _)
  rintro l σ₁ _ ⟨hleft, rfl⟩
  apply Leads.bind (leads_coerce rhs _)
  rintro r σ₂ _ ⟨hright, rfl⟩
  -- The cases of the operation, as the code distinguishes them.
  split
  · next hop hty =>
    apply Leads.bind (leads_emit _ _)
    rintro test σ₃ _ ⟨rfl, htest, rfl⟩
    apply Leads.mono (leads_emit _ _)
    rintro v σ' s' ⟨rfl, rfl, rfl⟩
    refine ⟨false, .intro rfl hleft hright (.floatCompare hop hty htest), ?_⟩
    rw [Bool.or_false]
  · next hop hty =>
    apply Leads.bind (leads_emit _ _)
    rintro test σ₃ _ ⟨rfl, htest, rfl⟩
    apply Leads.mono (leads_emit _ _)
    rintro v σ' s' ⟨rfl, rfl, rfl⟩
    refine ⟨false, .intro rfl hleft hright (.intCompare hop hty htest), ?_⟩
    rw [Bool.or_false]
  · next hop hty =>
    apply Leads.mono (leads_emit _ _)
    rintro v σ' s' ⟨rfl, rfl, rfl⟩
    refine ⟨false, .intro rfl hleft hright (.floatArith hop hty), ?_⟩
    rw [Bool.or_false]
  · next hop hty =>
    have hdivision : Leads (onDraft (Drafting.checkedDiv config l r)) σ₂
        ⟨s.symbols, σ₂.record.draft, s.mayFault⟩ fun q σ' s' =>
          Plan.Divided config σ₂ l r q.1 σ' ∧ s' = ⟨s.symbols, σ'.record.draft, s.mayFault⟩ :=
      leads_onDraft (Drafting.leads_checkedDiv config l r σ₂) fun _ _ h => ⟨h, rfl⟩
    apply Leads.bind hdivision
    rintro ⟨quotient, sites⟩ σ' _ ⟨hdivided, rfl⟩
    have hmark : Leads markMayFault σ' ⟨s.symbols, σ'.record.draft, s.mayFault⟩ fun _ σ₁ s₁ =>
        σ₁ = σ' ∧ s₁ = ⟨s.symbols, σ'.record.draft, true⟩ := leads_modify rfl ⟨rfl, rfl⟩
    apply Leads.bind hmark
    rintro ⟨⟩ _ _ ⟨rfl, rfl⟩
    refine leads_pure ⟨true, .intro rfl hleft hright (.divide hop hty hdivided), ?_⟩
    rw [Bool.or_true]
  · next hdiv hop hty =>
    apply Leads.mono (leads_emit _ _)
    rintro v σ' s' ⟨rfl, rfl, rfl⟩
    refine ⟨false, .intro rfl hleft hright (.intArith hop hdiv hty), ?_⟩
    rw [Bool.or_false]

theorem leads_negate (v : Value) : Leads (negate v) σ s fun v' σ' s' =>
    Plan.Negated σ v v' σ' ∧ s' = { s with draft := σ'.record.draft } := by
  apply Leads.bind (leads_typeOf v)
  rintro ty σ₁ s₁ ⟨hty, rfl, rfl⟩
  split
  · apply Leads.bind (leads_emit _ _)
    rintro zero σ₂ s₂ ⟨rfl, hσ₂, rfl⟩
    apply Leads.mono (leads_emit _ _)
    rintro v' σ' s' ⟨rfl, rfl, rfl⟩
    exact ⟨.float hty.symm hσ₂, rfl⟩
  · next hne =>
    apply Leads.bind (leads_emit _ _)
    rintro zero σ₂ s₂ ⟨rfl, hσ₂, rfl⟩
    apply Leads.mono (leads_emit _ _)
    rintro v' σ' s' ⟨rfl, rfl, rfl⟩
    exact ⟨.int (fun h => hne (hty.trans h)) hσ₂, rfl⟩

end Lower

end Abacus.Lowering
