import Abacus.Proofs.Variables.Contents

/-!
# Plans

Lowering builds a graph in an orderly way: it never leaves a block that it will come back to, and it
uses values only where they have been defined on every way. A `Plan` is the recording of a function
in the making with, for each block in use, the blocks on every way to it (its spine). This module
says what holds of a plan after each step of lowering, and what a step keeps.

* `Plan.Has` — a value that is defined on every way to a block;
* `Plan.Sound` — every operand is such a value where it is used, and so is what a variable has;
* `Plan.Extends` — what all steps keep;
* `Sound.emit`, `Sound.newBlock`, `Sound.enter`, `Sound.terminate`, `Sound.invoke`, `Sound.write`,
  `Sound.read`, `Sound.sealBlock` — the steps;
* `Sound.dominates` — a block of a spine dominates.
-/

namespace Abacus.Lowering

open Abacus.Flow (Value Block Ty Inst Terminator Builder BlockInfo ValueInfo)

/-- A recording, and for each block in use that block and others on every way to it. -/
structure Plan where
  record : Recording
  spine : Block → List Block

namespace Plan

/-- The function under construction. -/
abbrev builder (σ : Plan) : Builder := σ.record.draft.builder

/-- What is known about the variables. -/
abbrev known (σ : Plan) : Variables := σ.record.draft.known

/-- The current block. -/
abbrev current (σ : Plan) : Block := σ.builder.current

/-- The end of a block, if it has one. -/
abbrev terminator? (σ : Plan) (b : Block) : Option Terminator := (σ.builder.info b).terminator?

/-- The value stands in a block, among what happens there or among its phis. -/
def Listed (σ : Plan) (b : Block) (v : Value) : Prop :=
  .inst v ∈ σ.record.script b ∨ v ∈ (σ.builder.info b).phis

/-- The value is defined on every way to the block. -/
def Has (σ : Plan) (b : Block) (v : Value) : Prop :=
  (σ.builder.valueInfo v).block ∈ σ.spine b ∧ σ.Listed (σ.builder.valueInfo v).block v

/-- The values that an event needs. -/
def operands (σ : Plan) : Event → List Value
  | .inst v => (σ.builder.valueInfo v).inst.operands
  | .write _ v => [v]
  | .read .. => []

/-- The value can be used in a block after some of what happens there. -/
def Usable (σ : Plan) (b : Block) (front : List Event) (v : Value) : Prop :=
  v.index < σ.builder.valueCount ∧ σ.Has b v ∧
    ((σ.builder.valueInfo v).block = b → .inst v ∈ front ∨ v ∈ (σ.builder.info b).phis)

end Plan

/-- The values that the end of a block reads; those of a call belong to the call. -/
def endOperands : Terminator → List Value
  | .branch condition _ _ => [condition]
  | .ret v | .raise v | .resume v => [v]
  | .jump _ | .invoke .. | .unreachable => []

/-- The call that belongs to the end of a block. -/
def endCall? : Option Terminator → Option Value
  | some (.invoke call _ _) => some call
  | _ => none

namespace Plan

/-- A plan is in order. -/
structure Sound (σ : Plan) : Prop where
  record : σ.record.Sound
  own : ∀ {b}, σ.spine b ≠ [] → b ∈ σ.spine b
  start : σ.spine Flow.Function.entry = [Flow.Function.entry] ∧
    σ.builder.preds Flow.Function.entry = []
  used : σ.spine σ.current ≠ []
  fresh : ∀ {b : Block}, σ.builder.blockCount ≤ b.index → σ.spine b = []
  begun : ∀ {b}, σ.spine b = [] → σ.record.script b = [] ∧ (σ.builder.info b).phis = []
  open_source : ∀ {q c}, q ∈ σ.builder.preds c → σ.spine q ≠ []
  edge : ∀ {q c}, q ∈ σ.builder.preds c → σ.spine c ≠ [] →
    c ∈ σ.spine q ∨ ∀ a ∈ σ.spine c, a ≠ c → a ∈ σ.spine q
  chain : ∀ {q c}, σ.known.isSealed c = true → σ.builder.preds c = [q] → σ.spine c ≠ [] →
    σ.spine c = c :: σ.spine q
  plain : ∀ {q c}, σ.known.isSealed c = true → σ.builder.preds c = [q] →
    (σ.builder.info c).phis = []
  bound : ∀ {x b r}, σ.known.value? x b = some r → σ.Has b r
  insts : ∀ b, (σ.record.script b).filterMap Event.inst? =
    (σ.builder.info b).insts.toList ++ (endCall? (σ.terminator? b)).toList
  owned : ∀ {v b}, v ∈ (σ.builder.info b).phis → σ.known.owner? v ≠ none
  uses : ∀ {b front e back}, σ.record.script b = front ++ e :: back →
    ∀ u ∈ σ.operands e, σ.Usable b front u
  ends : ∀ {b t}, σ.terminator? b = some t → σ.spine b ≠ [] ∧
    ∀ u ∈ endOperands t, σ.Usable b (σ.record.script b) u

/-- What all steps of lowering keep. -/
structure Extends (σ σ' : Plan) : Prop where
  blockCount : σ.builder.blockCount ≤ σ'.builder.blockCount
  valueCount : σ.builder.valueCount ≤ σ'.builder.valueCount
  script : ∀ b, ∃ later, σ'.record.script b = σ.record.script b ++ later
  info : ∀ {v : Value}, v.index < σ.builder.valueCount → σ.known.owner? v = none →
    σ'.builder.valueInfo v = σ.builder.valueInfo v
  frame : ∀ {v : Value}, v.index < σ.builder.valueCount →
    σ'.builder.ty v = σ.builder.ty v ∧
      (σ'.builder.valueInfo v).block = (σ.builder.valueInfo v).block
  owner : ∀ {v : Value}, v.index < σ.builder.valueCount →
    σ'.known.owner? v = σ.known.owner? v
  phis : ∀ {b v}, v ∈ (σ.builder.info b).phis → v ∈ (σ'.builder.info b).phis
  spine : ∀ {b}, σ.spine b ≠ [] → σ'.spine b = σ.spine b
  isSealed : ∀ {b}, σ.known.isSealed b = true → σ'.known.isSealed b = true
  preds : ∀ {b}, σ.known.isSealed b = true → σ'.builder.preds b = σ.builder.preds b
  terminator : ∀ {b t}, σ.terminator? b = some t → σ'.terminator? b = some t
  left : ∀ {b t}, σ.terminator? b = some t → b ≠ σ.current → b ≠ σ'.current
  frozen : ∀ {b t}, σ.terminator? b = some t → b ≠ σ.current →
    σ'.record.script b = σ.record.script b
  insts : ∀ {b t}, σ.terminator? b = some t →
    (σ'.builder.info b).insts = (σ.builder.info b).insts
  placed : ∀ b, (σ.builder.info b).insts.toList <+: (σ'.builder.info b).insts.toList
  type : ∀ {x ty}, σ.known.type? x = some ty → σ'.known.type? x = some ty
  signature : σ'.builder.function.name = σ.builder.function.name ∧
    σ'.builder.function.params = σ.builder.function.params
  label : ∀ {b : Block}, b.index < σ.builder.blockCount →
    (σ'.builder.info b).label = (σ.builder.info b).label
  run : ∃ ops, σ'.record = σ.record.run ops

namespace Extends

variable {σ σ₁ σ₂ : Plan}

theorem rfl' (σ : Plan) : Extends σ σ where
  blockCount := Nat.le_refl _
  valueCount := Nat.le_refl _
  script _ := ⟨[], (List.append_nil _).symm⟩
  info _ _ := rfl
  frame _ := ⟨rfl, rfl⟩
  owner _ := rfl
  phis := id
  spine _ := rfl
  isSealed := id
  preds _ := rfl
  terminator := id
  left _ := id
  frozen _ _ := rfl
  insts _ := rfl
  placed _ := List.prefix_rfl
  type := id
  signature := ⟨rfl, rfl⟩
  label _ := rfl
  run := ⟨[], rfl⟩

theorem trans (h₁ : Extends σ σ₁) (h₂ : Extends σ₁ σ₂) : Extends σ σ₂ where
  blockCount := Nat.le_trans h₁.blockCount h₂.blockCount
  valueCount := Nat.le_trans h₁.valueCount h₂.valueCount
  script b := by
    obtain ⟨later₁, h1⟩ := h₁.script b
    obtain ⟨later₂, h2⟩ := h₂.script b
    exact ⟨later₁ ++ later₂, by rw [h2, h1, List.append_assoc]⟩
  info hv ho := by
    have hv₁ := Nat.lt_of_lt_of_le hv h₁.valueCount
    rw [h₂.info hv₁ (by rw [h₁.owner hv]; exact ho), h₁.info hv ho]
  frame hv := by
    have hv₁ := Nat.lt_of_lt_of_le hv h₁.valueCount
    exact ⟨(h₂.frame hv₁).1.trans (h₁.frame hv).1, (h₂.frame hv₁).2.trans (h₁.frame hv).2⟩
  owner hv := (h₂.owner (Nat.lt_of_lt_of_le hv h₁.valueCount)).trans (h₁.owner hv)
  phis hv := h₂.phis (h₁.phis hv)
  spine hb := by
    have h1 := h₁.spine hb
    rw [h₂.spine (h1 ▸ hb), h1]
  isSealed h := h₂.isSealed (h₁.isSealed h)
  preds h := (h₂.preds (h₁.isSealed h)).trans (h₁.preds h)
  terminator h := h₂.terminator (h₁.terminator h)
  left h hb := h₂.left (h₁.terminator h) (h₁.left h hb)
  frozen h hb := (h₂.frozen (h₁.terminator h) (h₁.left h hb)).trans (h₁.frozen h hb)
  insts h := (h₂.insts (h₁.terminator h)).trans (h₁.insts h)
  placed b := (h₁.placed b).trans (h₂.placed b)
  type h := h₂.type (h₁.type h)
  signature := ⟨h₂.signature.1.trans h₁.signature.1, h₂.signature.2.trans h₁.signature.2⟩
  label hb := (h₂.label (Nat.lt_of_lt_of_le hb h₁.blockCount)).trans (h₁.label hb)
  run := by
    obtain ⟨ops₁, hrun₁⟩ := h₁.run
    obtain ⟨ops₂, hrun₂⟩ := h₂.run
    exact ⟨ops₁ ++ ops₂, by rw [hrun₂, hrun₁, Recording.run_append]⟩

end Extends

namespace Sound

variable {σ σ' : Plan}

/-- A listed value exists and belongs to its block. -/
theorem of_listed (h : σ.Sound) {b : Block} {v : Value} (hv : σ.Listed b v) :
    v.index < σ.builder.valueCount ∧ (σ.builder.valueInfo v).block = b := by
  rcases hv with hv | hv
  · exact h.record.listed hv
  · exact h.record.phis hv

/-- What stands among the events is no phi of a search. -/
theorem owner_of_inst (h : σ.Sound) {b : Block} {v : Value} (hv : .inst v ∈ σ.record.script b) :
    σ.known.owner? v = none := by
  cases howner : σ.known.owner? v with
  | none => rfl
  | some x => exact absurd (h.record.coherent.owned howner).2.2.1 (h.record.apart hv)

/-- A value that a block has exists. -/
theorem lt_of_has (h : σ.Sound) {b : Block} {v : Value} (hv : σ.Has b v) :
    v.index < σ.builder.valueCount := (h.of_listed hv.2).1

/-- Blocks in a spine are in use. -/
theorem ne_nil_of_mem {a b : Block} (ha : a ∈ σ.spine b) : σ.spine b ≠ [] := by
  intro hb
  rw [hb] at ha
  cases ha

end Sound

theorem Listed.mono {σ σ' : Plan} (e : Extends σ σ') {b : Block} {v : Value}
    (hv : σ.Listed b v) : σ'.Listed b v := by
  rcases hv with hv | hv
  · obtain ⟨later, hlater⟩ := e.script b
    refine .inl ?_
    rw [hlater]
    exact List.mem_append_left _ hv
  · exact .inr (e.phis hv)

/-- What a block has it keeps. -/
theorem Has.mono {σ σ' : Plan} (h : σ.Sound) (e : Extends σ σ') {b : Block} {v : Value}
    (hv : σ.Has b v) : σ'.Has b v := by
  have hblock := (e.frame (h.lt_of_has hv)).2
  unfold Has
  rw [hblock, e.spine (Sound.ne_nil_of_mem hv.1)]
  exact ⟨hv.1, hv.2.mono e⟩

/-- What a block has can be used behind everything that has happened there. -/
theorem Has.usable {σ : Plan} (h : σ.Sound) {b : Block} {v : Value} (hv : σ.Has b v) :
    σ.Usable b (σ.record.script b) v := by
  refine ⟨h.lt_of_has hv, hv, fun hb => ?_⟩
  have := hv.2
  rw [hb] at this
  exact this

theorem Usable.mono {σ σ' : Plan} (e : Extends σ σ') {b : Block} {front front' : List Event}
    {v : Value} (hfront : ∀ e ∈ front, e ∈ front') (hv : σ.Usable b front v) :
    σ'.Usable b front' v := by
  obtain ⟨hlt, ⟨hmem, hlisted⟩, hhere⟩ := hv
  unfold Usable Has
  rw [(e.frame hlt).2, e.spine (Sound.ne_nil_of_mem hmem)]
  refine ⟨Nat.lt_of_lt_of_le hlt e.valueCount, ⟨hmem, hlisted.mono e⟩, fun hb => ?_⟩
  rcases hhere hb with hmem | hmem
  · exact .inl (hfront _ hmem)
  · exact .inr (e.phis hmem)

/-- What has happened needs the same values later on. -/
theorem Sound.operands_eq {σ σ' : Plan} (h : σ.Sound) (e : Extends σ σ') {b : Block} {e' : Event}
    (he : e' ∈ σ.record.script b) : σ'.operands e' = σ.operands e' := by
  cases e' with
  | inst v =>
    show (σ'.builder.valueInfo v).inst.operands = (σ.builder.valueInfo v).inst.operands
    rw [e.info (h.record.listed he).1 (h.owner_of_inst he)]
  | write x v => rfl
  | read x v => rfl

/-- A step keeps a plan in order if it opens blocks, adds edges, binds variables and places
instructions and ends in an orderly way. -/
theorem Sound.grow {σ σ' : Plan} (h : σ.Sound) (e : Extends σ σ') (record : σ'.record.Sound)
    (quiet : ∀ b, b ≠ σ.current → σ'.record.script b = σ.record.script b)
    (start : σ'.builder.preds Flow.Function.entry = [])
    (opens : ∀ b, σ'.spine b = σ.spine b ∨ σ.spine b = [] ∧ b.index < σ'.builder.blockCount ∧
      ∃ s, σ'.spine b = b :: s ∧ (∀ q ∈ σ'.builder.preds b, ∀ a ∈ s, a ∈ σ'.spine q) ∧
        ∀ q, σ'.known.isSealed b = true → σ'.builder.preds b = [q] → s = σ'.spine q)
    (used : σ'.spine σ'.current ≠ [])
    (edges : ∀ {q c}, q ∈ σ'.builder.preds c → q ∈ σ.builder.preds c ∨ σ'.spine q ≠ [] ∧
      (σ'.spine c ≠ [] → c ∈ σ'.spine q ∨ ∀ a ∈ σ'.spine c, a ≠ c → a ∈ σ'.spine q))
    (chains : ∀ {q c}, σ'.known.isSealed c = true → σ'.builder.preds c = [q] → σ.spine c ≠ [] →
      σ.known.isSealed c = true ∧ σ.builder.preds c = [q])
    (binds : ∀ {x b r}, σ'.known.value? x b = some r →
      σ.known.value? x b = some r ∨ σ'.Has b r)
    (insts : ∀ b, (σ'.record.script b).filterMap Event.inst? =
      (σ'.builder.info b).insts.toList ++ (endCall? (σ'.terminator? b)).toList)
    (owned : ∀ {v b}, v ∈ (σ'.builder.info b).phis →
      v ∈ (σ.builder.info b).phis ∨ σ'.known.owner? v ≠ none ∧ σ'.spine b ≠ [] ∧
        ∀ q, σ'.known.isSealed b = true → σ'.builder.preds b ≠ [q])
    (places : ∀ {b front e back}, σ'.record.script b = front ++ e :: back →
      (∃ back', σ.record.script b = front ++ e :: back') ∨
        ∀ u ∈ σ'.operands e, σ'.Usable b front u)
    (ends : ∀ {b t}, σ'.terminator? b = some t → σ.terminator? b = some t ∨ σ'.spine b ≠ [] ∧
      ∀ u ∈ endOperands t, σ'.Usable b (σ'.record.script b) u) : σ'.Sound := by
  have hspine : ∀ {b}, σ.spine b ≠ [] → σ'.spine b = σ.spine b := e.spine
  constructor
  case record => exact record
  case own =>
    intro b hb
    rcases opens b with ho | ⟨-, -, s, ho, -⟩
    · rw [ho] at hb ⊢
      exact h.own hb
    · rw [ho]
      simp
  case start =>
    refine ⟨?_, start⟩
    rw [hspine (by rw [h.start.1]; simp), h.start.1]
  case used => exact used
  case fresh =>
    intro b hb
    rcases opens b with ho | ⟨-, hlt, -⟩
    · rw [ho]
      exact h.fresh (Nat.le_trans e.blockCount hb)
    · exact absurd hlt (Nat.not_lt.2 hb)
  case begun =>
    intro b hb
    rcases opens b with ho | ⟨-, -, s, ho, -⟩
    · have hold := ho ▸ hb
      refine ⟨(quiet b fun hc => h.used (hc ▸ hold)).trans (h.begun hold).1, ?_⟩
      refine List.eq_nil_iff_forall_not_mem.2 fun v hv => ?_
      rcases owned hv with hv | ⟨-, hused, -⟩
      · rw [(h.begun hold).2] at hv
        cases hv
      · exact hused hb
    · rw [ho] at hb
      cases hb
  case open_source =>
    intro q c hq
    rcases edges hq with hq | ⟨hq, -⟩
    · rw [hspine (h.open_source hq)]
      exact h.open_source hq
    · exact hq
  case edge =>
    intro q c hq hc
    rcases opens c with ho | ⟨-, -, s, ho, hs, -⟩
    · rcases edges hq with hq | ⟨-, hedge⟩
      · rw [ho, hspine (h.open_source hq)]
        rw [ho] at hc
        exact h.edge hq hc
      · exact hedge hc
    · right
      intro a ha hac
      rw [ho] at ha
      rcases List.mem_cons.1 ha with ha | ha
      · exact absurd ha hac
      · exact hs q hq a ha
  case chain =>
    intro q c hsealed hpreds hc
    rcases opens c with ho | ⟨-, -, s, ho, -, hs⟩
    · rw [ho] at hc ⊢
      obtain ⟨hsealed', hpreds'⟩ := chains hsealed hpreds hc
      rw [hspine (h.open_source (by rw [hpreds']; simp))]
      exact h.chain hsealed' hpreds' hc
    · rw [ho, hs q hsealed hpreds]
  case plain =>
    intro q c hsealed hpreds
    refine List.eq_nil_iff_forall_not_mem.2 fun v hv => ?_
    rcases owned hv with hv | ⟨-, -, hmerge⟩
    · by_cases hc : σ.spine c = []
      · rw [(h.begun hc).2] at hv
        cases hv
      · obtain ⟨hsealed', hpreds'⟩ := chains hsealed hpreds hc
        rw [h.plain hsealed' hpreds'] at hv
        cases hv
    · exact hmerge q hsealed hpreds
  case bound =>
    intro x b r hr
    rcases binds hr with hr | hr
    · exact (h.bound hr).mono h e
    · exact hr
  case insts => exact insts
  case owned =>
    intro v b hv
    rcases owned hv with hold | ⟨hnew, -⟩
    · rw [e.owner (h.record.phis hold).1]
      exact h.owned hold
    · exact hnew
  case uses =>
    intro b front e' back hscript u hu
    rcases places hscript with ⟨back', hback⟩ | hnew
    · rw [h.operands_eq e (by rw [hback]; simp : e' ∈ σ.record.script b)] at hu
      exact (h.uses hback u hu).mono e fun _ => id
    · exact hnew u hu
  case ends =>
    intro b t ht
    rcases ends ht with hold | hnew
    · obtain ⟨hused, huses⟩ := h.ends hold
      refine ⟨by rw [hspine hused]; exact hused, fun u hu => ?_⟩
      obtain ⟨later, hlater⟩ := e.script b
      refine (huses u hu).mono e fun _ hmem => ?_
      rw [hlater]
      exact List.mem_append_left _ hmem
    · exact hnew

/-! ## Instructions -/

/-- The plan with an instruction at the end of the current block. -/
def emit (σ : Plan) (inst : Inst) (ty : Ty) : Plan :=
  { σ with record := σ.record.step (.push inst ty) }

/-- What is known about variables, ends of blocks and edges stays when an instruction is added. -/
theorem info_emit (σ : Plan) (inst : Inst) (ty : Ty) (b : Block) :
    ((σ.emit inst ty).builder.info b).phis = (σ.builder.info b).phis ∧
      (σ.emit inst ty).terminator? b = σ.terminator? b ∧
      (σ.emit inst ty).builder.preds b = σ.builder.preds b ∧
      ((σ.emit inst ty).builder.info b).insts =
        if b = σ.current ∧ b.index < σ.builder.blockCount then
          (σ.builder.info b).insts.push ⟨σ.builder.valueCount⟩
        else (σ.builder.info b).insts := by
  have hinfo : (σ.emit inst ty).builder.info b = _ := Builder.info_push σ.builder inst ty b
  refine ⟨?_, ?_, ?_, ?_⟩
  · rw [hinfo]
    split <;> rfl
  · unfold terminator?
    rw [hinfo]
    split <;> rfl
  · show ((σ.emit inst ty).builder.info b).preds = _
    rw [hinfo]
    split <;> rfl
  · rw [hinfo]
    split <;> rfl

theorem valueInfo_emit (σ : Plan) (inst : Inst) (ty : Ty) (v : Value) :
    (σ.emit inst ty).builder.valueInfo v =
      if v.index = σ.builder.valueCount then ⟨ty, inst, σ.current⟩ else σ.builder.valueInfo v :=
  Builder.valueInfo_push σ.builder inst ty v

theorem script_emit (σ : Plan) (inst : Inst) (ty : Ty) :
    (σ.emit inst ty).record.script =
      Recording.happen σ.record.script σ.current (.inst ⟨σ.builder.valueCount⟩) := rfl

theorem extends_emit {σ : Plan} {inst : Inst} {ty : Ty} (h : σ.terminator? σ.current = none) :
    Extends σ (σ.emit inst ty) where
  blockCount := Nat.le_of_eq (Builder.blockCount_push ..).symm
  valueCount := by
    rw [show (σ.emit inst ty).builder.valueCount = _ from Builder.valueCount_push ..]
    exact Nat.le_succ _
  script b := by
    rw [script_emit]
    by_cases hb : b = σ.current
    · exact ⟨[.inst ⟨σ.builder.valueCount⟩], by rw [hb, Recording.happen_self]⟩
    · exact ⟨[], by rw [Recording.happen_of_ne _ _ hb, List.append_nil]⟩
  info {v} hv _ := by rw [valueInfo_emit, if_neg (Nat.ne_of_lt hv)]
  frame {v} hv := by
    have hinfo : (σ.emit inst ty).builder.valueInfo v = σ.builder.valueInfo v := by
      rw [valueInfo_emit, if_neg (Nat.ne_of_lt hv)]
    exact ⟨congrArg ValueInfo.ty hinfo, congrArg ValueInfo.block hinfo⟩
  owner _ := rfl
  phis {b v} hv := by rw [(info_emit σ inst ty b).1]; exact hv
  spine _ := rfl
  isSealed := id
  preds {b} _ := (info_emit σ inst ty b).2.2.1
  terminator {b t} ht := by rw [(info_emit σ inst ty b).2.1]; exact ht
  left _ := id
  frozen {b t} _ hb := by rw [script_emit, Recording.happen_of_ne _ _ hb]
  insts {b t} ht := by
    rw [(info_emit σ inst ty b).2.2.2, if_neg]
    rintro ⟨rfl, -⟩
    rw [h] at ht
    cases ht
  placed b := by
    rw [(info_emit σ inst ty b).2.2.2]
    split
    · rw [Array.toList_push]
      exact List.prefix_append _ _
    · exact List.prefix_rfl
  type := id
  signature := ⟨rfl, rfl⟩
  label {b} _ := by
    rw [show (σ.emit inst ty).builder.info b = _ from Builder.info_push σ.builder inst ty b]
    split <;> rfl
  run := ⟨[.push inst ty], rfl⟩

/-- The new value can be used from now on. -/
theorem has_emit {σ : Plan} (h : σ.Sound) (inst : Inst) (ty : Ty) :
    (σ.emit inst ty).Has σ.current ⟨σ.builder.valueCount⟩ := by
  have hinfo := valueInfo_emit σ inst ty ⟨σ.builder.valueCount⟩
  rw [if_pos rfl] at hinfo
  unfold Has
  rw [hinfo]
  refine ⟨h.own h.used, .inl ?_⟩
  rw [script_emit, Recording.happen_self]
  simp

theorem Sound.emit {σ : Plan} (h : σ.Sound) (hopen : σ.terminator? σ.current = none) {inst : Inst}
    (ty : Ty) (hoperands : ∀ u ∈ inst.operands, σ.Has σ.current u) : (σ.emit inst ty).Sound := by
  have e : Extends σ (σ.emit inst ty) := extends_emit hopen
  have hinfo := info_emit σ inst ty
  refine h.grow e (h.record.builds (Recording.builds_push h.record inst ty))
    (fun b hb => by rw [script_emit, Recording.happen_of_ne _ _ hb]) ?_
    (fun _ => .inl rfl) h.used ?_ ?_ .inl ?_ ?_ ?_ ?_
  · rw [(hinfo _).2.2.1]
    exact h.start.2
  · intro q c hq
    rw [(hinfo c).2.2.1] at hq
    exact .inl hq
  · intro q c hsealed hpreds _
    rw [(hinfo c).2.2.1] at hpreds
    exact ⟨hsealed, hpreds⟩
  · intro b
    rw [script_emit, (hinfo b).2.2.2, (hinfo b).2.1]
    by_cases hb : b = σ.current
    · have hlt : b.index < σ.builder.blockCount := hb ▸ h.record.current
      rw [if_pos ⟨hb, hlt⟩, hb, Recording.happen_self, List.filterMap_append, h.insts, hopen]
      simp [Event.inst?, endCall?]
    · rw [if_neg fun hc => hb hc.1, Recording.happen_of_ne _ _ hb]
      exact h.insts b
  · intro v b hv
    rw [(hinfo b).1] at hv
    exact .inl hv
  · intro b front v back hscript
    rw [script_emit] at hscript
    rcases Recording.split_happen hscript with hold | ⟨rfl, he, hfront⟩
    · exact .inl hold
    · cases he
      right
      intro u hu
      change u ∈ ((σ.emit inst ty).builder.valueInfo ⟨σ.builder.valueCount⟩).inst.operands at hu
      rw [valueInfo_emit, if_pos rfl] at hu
      rw [← hfront]
      exact ((hoperands u hu).usable h).mono e fun _ => id
  · intro b t ht
    rw [(hinfo b).2.1] at ht
    exact .inl ht

end Plan

/-! ## Blocks -/

namespace Plan

/-- The plan with a further block. -/
def newBlock (σ : Plan) (label : String) : Plan :=
  { σ with record := σ.record.step (.newBlock label) }

/-- A further block holds nothing that counts. -/
theorem info_newBlock (σ : Plan) (label : String) (b : Block) :
    ((σ.newBlock label).builder.info b).phis = (σ.builder.info b).phis ∧
      (σ.newBlock label).terminator? b = σ.terminator? b ∧
      (σ.newBlock label).builder.preds b = σ.builder.preds b ∧
      ((σ.newBlock label).builder.info b).insts = (σ.builder.info b).insts := by
  have hinfo : (σ.newBlock label).builder.info b = _ := Builder.info_newBlock σ.builder label b
  unfold terminator?
  show _ ∧ _ ∧ ((σ.newBlock label).builder.info b).preds = (σ.builder.info b).preds ∧ _
  rw [hinfo]
  split
  · next hb =>
    have hold : σ.builder.info b = default := Flow.Function.block_of_le (Nat.le_of_eq hb.symm)
    rw [hold]
    exact ⟨rfl, rfl, rfl, rfl⟩
  · exact ⟨rfl, rfl, rfl, rfl⟩

theorem blockCount_newBlock (σ : Plan) (label : String) :
    (σ.newBlock label).builder.blockCount = σ.builder.blockCount + 1 :=
  Builder.blockCount_newBlock ..

theorem extends_newBlock (σ : Plan) (label : String) : Extends σ (σ.newBlock label) where
  blockCount := by rw [blockCount_newBlock]; exact Nat.le_succ _
  valueCount := Nat.le_refl _
  script _ := ⟨[], (List.append_nil _).symm⟩
  info _ _ := rfl
  frame _ := ⟨rfl, rfl⟩
  owner _ := rfl
  phis {b v} hv := by rw [(info_newBlock σ label b).1]; exact hv
  spine _ := rfl
  isSealed := id
  preds {b} _ := (info_newBlock σ label b).2.2.1
  terminator {b t} ht := by rw [(info_newBlock σ label b).2.1]; exact ht
  left _ := id
  frozen _ _ := rfl
  insts {b t} _ := (info_newBlock σ label b).2.2.2
  placed b := ⟨[], by rw [List.append_nil, (info_newBlock σ label b).2.2.2]⟩
  type := id
  signature := ⟨rfl, rfl⟩
  label {b} hb := by
    rw [show (σ.newBlock label).builder.info b = _ from Builder.info_newBlock σ.builder label b,
      if_neg (Nat.ne_of_lt hb)]
  run := ⟨[.newBlock label], rfl⟩

theorem Sound.newBlock {σ : Plan} (h : σ.Sound) (label : String) : (σ.newBlock label).Sound := by
  have hinfo := info_newBlock σ label
  refine h.grow (extends_newBlock σ label)
    (h.record.builds (Recording.builds_newBlock h.record label)) (fun _ _ => rfl) ?_
    (fun _ => .inl rfl) h.used ?_ ?_ .inl ?_ ?_ (fun hscript => .inl ⟨_, hscript⟩) ?_
  · rw [(hinfo _).2.2.1]
    exact h.start.2
  · intro q c hq
    rw [(hinfo c).2.2.1] at hq
    exact .inl hq
  · intro q c hsealed hpreds _
    rw [(hinfo c).2.2.1] at hpreds
    exact ⟨hsealed, hpreds⟩
  · intro b
    rw [(hinfo b).2.2.2, (hinfo b).2.1]
    exact h.insts b
  · intro v b hv
    rw [(hinfo b).1] at hv
    exact .inl hv
  · intro b t ht
    rw [(hinfo b).2.1] at ht
    exact .inl ht

/-- The plan with a block in use for the first time, behind the blocks `s`. -/
def enter (σ : Plan) (c : Block) (s : List Block) : Plan where
  record := σ.record.step (.setCurrent c)
  spine b := if b = c then c :: s else σ.spine b

theorem extends_enter {σ : Plan} (h : σ.Sound) {c : Block} (hc : σ.spine c = []) (s : List Block) :
    Extends σ (σ.enter c s) where
  blockCount := Nat.le_refl _
  valueCount := Nat.le_refl _
  script _ := ⟨[], (List.append_nil _).symm⟩
  info _ _ := rfl
  frame _ := ⟨rfl, rfl⟩
  owner _ := rfl
  phis := id
  spine {b} hb := by
    refine if_neg ?_
    rintro rfl
    exact hb hc
  isSealed := id
  preds _ := rfl
  terminator := id
  left ht _ := by
    rintro rfl
    exact (h.ends ht).1 hc
  frozen _ _ := rfl
  insts _ := rfl
  placed _ := List.prefix_rfl
  type := id
  signature := ⟨rfl, rfl⟩
  label _ := rfl
  run := ⟨[.setCurrent c], rfl⟩

/-- A block can be used once all blocks that lead there, and no others, stand in its spine. -/
theorem Sound.enter {σ : Plan} (h : σ.Sound) {c : Block} {s : List Block}
    (hexists : c.index < σ.builder.blockCount) (hc : σ.spine c = [])
    (hpreds : ∀ q ∈ σ.builder.preds c, ∀ a ∈ s, a ∈ σ.spine q)
    (hchain : ∀ q, σ.known.isSealed c = true → σ.builder.preds c = [q] → s = σ.spine q) :
    (σ.enter c s).Sound := by
  have hother : ∀ {q}, σ.spine q ≠ [] → (σ.enter c s).spine q = σ.spine q :=
    (extends_enter h hc s).spine
  refine h.grow (extends_enter h hc s)
    (h.record.builds (Recording.builds_setCurrent h.record hexists)) (fun _ _ => rfl) h.start.2 ?_ ?_ .inl
    (fun hsealed hp _ => ⟨hsealed, hp⟩) .inl h.insts .inl
    (fun hscript => .inl ⟨_, hscript⟩) .inl
  · intro b
    by_cases hb : b = c
    · refine .inr ⟨hb ▸ hc, hb ▸ hexists, s, by rw [hb]; exact if_pos rfl, ?_, ?_⟩
      · intro q hq a ha
        rw [hother (h.open_source hq)]
        rw [hb] at hq
        exact hpreds q hq a ha
      · intro q hsealed hp
        rw [hb] at hsealed hp
        have hp' : σ.builder.preds c = [q] := hp
        have hq : q ∈ σ.builder.preds c := by simp [hp']
        rw [hother (h.open_source hq)]
        exact hchain q hsealed hp'
    · exact .inl (if_neg hb)
  · show (if c = c then c :: s else _) ≠ []
    rw [if_pos rfl]
    simp

/-! ## Ends -/

/-- The plan in which the current block has an end. -/
def terminate (σ : Plan) (t : Terminator) : Plan :=
  { σ with record := σ.record.step (.terminate t) }

theorem terminator?_terminate {σ : Plan} (h : σ.Sound) (t : Terminator) (b : Block) :
    (σ.terminate t).terminator? b = if b = σ.current then some t else σ.terminator? b := by
  by_cases hlt : b.index < σ.builder.blockCount
  · have hinfo : (σ.terminate t).builder.info b = _ := Builder.info_terminate σ.builder t b hlt
    unfold terminator?
    rw [hinfo]
  · have hle := Nat.not_lt.1 hlt
    have hne : b ≠ σ.current := fun hb => hlt (hb ▸ h.record.current)
    have hnone : ∀ {f : Flow.Function}, f.blocks.size ≤ b.index →
        (f.block b).terminator? = none := by
      intro f hf
      rw [Flow.Function.block_of_le hf]
      rfl
    have hle' : (σ.terminate t).builder.function.blocks.size ≤ b.index := by
      have := Builder.blockCount_terminate σ.builder t
      unfold Builder.blockCount at this hle
      show (σ.builder.terminate t).function.blocks.size ≤ _
      omega
    rw [if_neg hne]
    exact (hnone hle').trans (hnone hle).symm

/-- An end changes no phis and no instructions. -/
theorem info_terminate (σ : Plan) (t : Terminator) (b : Block) :
    ((σ.terminate t).builder.info b).phis = (σ.builder.info b).phis ∧
      ((σ.terminate t).builder.info b).insts = (σ.builder.info b).insts := by
  by_cases hlt : b.index < σ.builder.blockCount
  · have hinfo : (σ.terminate t).builder.info b = _ := Builder.info_terminate σ.builder t b hlt
    rw [hinfo]
    exact ⟨rfl, rfl⟩
  · have hle := Nat.not_lt.1 hlt
    have hle' : (σ.terminate t).builder.function.blocks.size ≤ b.index := by
      have := Builder.blockCount_terminate σ.builder t
      unfold Builder.blockCount at this hle
      show (σ.builder.terminate t).function.blocks.size ≤ _
      omega
    rw [show (σ.terminate t).builder.info b = default from Flow.Function.block_of_le hle',
      show σ.builder.info b = default from Flow.Function.block_of_le hle]
    exact ⟨rfl, rfl⟩

theorem mem_preds_terminate {σ : Plan} {t : Terminator} {q c : Block}
    (ht : ∀ c ∈ t.successors, c.index < σ.builder.blockCount) :
    q ∈ (σ.terminate t).builder.preds c ↔
      q ∈ σ.builder.preds c ∨ q = σ.current ∧ c ∈ t.successors := by
  show q ∈ (σ.builder.terminate t).preds c ↔ _
  by_cases hc : c ∈ t.successors
  · rw [Builder.preds_terminate (ht c hc), List.mem_append, List.mem_replicate]
    have hcount := List.count_pos_iff.2 hc
    constructor
    · rintro (hq | hq)
      · exact .inl hq
      · exact .inr ⟨hq.2, hc⟩
    · rintro (hq | hq)
      · exact .inl hq
      · exact .inr ⟨by omega, hq.1⟩
  · rw [Builder.preds_terminate_of_notMem hc]
    simp [hc]

/-- May the current block lead to the targets? They exist, more edges may lead there, and the
blocks on every way to them stand in the spine of the current block. -/
def MayLead (σ : Plan) (targets : List Block) : Prop :=
  ∀ c ∈ targets, c.index < σ.builder.blockCount ∧ σ.known.isSealed c = false ∧
    c ≠ Flow.Function.entry ∧
    (σ.spine c ≠ [] → c ∈ σ.spine σ.current ∨ ∀ a ∈ σ.spine c, a ≠ c → a ∈ σ.spine σ.current)

theorem mayEnd {σ : Plan} (hopen : σ.terminator? σ.current = none) {targets : List Block}
    (h : σ.MayLead targets) : σ.record.MayEnd targets := by
  refine ⟨?_, fun c hc => ⟨(h c hc).1, (h c hc).2.1⟩⟩
  show (σ.terminator? σ.current).isSome = false
  rw [hopen]
  rfl

/-- The edges after an end, for `Sound.grow`. -/
theorem edges_terminate {σ : Plan} (h : σ.Sound) {t : Terminator} (ht : σ.MayLead t.successors)
    {q c : Block} (hq : q ∈ (σ.terminate t).builder.preds c) : q ∈ σ.builder.preds c ∨
      σ.spine q ≠ [] ∧ (σ.spine c ≠ [] → c ∈ σ.spine q ∨ ∀ a ∈ σ.spine c, a ≠ c → a ∈ σ.spine q) := by
  rcases (mem_preds_terminate fun c hc => (ht c hc).1).1 hq with hq | ⟨rfl, hc⟩
  · exact .inl hq
  · exact .inr ⟨h.used, (ht c hc).2.2.2⟩

/-- A sealed block keeps its predecessors. -/
theorem preds_terminate {σ : Plan} {t : Terminator} (ht : σ.MayLead t.successors) {c : Block}
    (hc : σ.known.isSealed c = true ∨ c = Flow.Function.entry) :
    (σ.terminate t).builder.preds c = σ.builder.preds c := by
  refine Builder.preds_terminate_of_notMem fun hmem => ?_
  rcases hc with hc | hc
  · rw [(ht c hmem).2.1] at hc
    cases hc
  · exact (ht c hmem).2.2.1 hc

theorem extends_terminate {σ : Plan} (h : σ.Sound) (hopen : σ.terminator? σ.current = none)
    {t : Terminator} (ht : σ.MayLead t.successors) : Extends σ (σ.terminate t) where
  blockCount := Nat.le_of_eq (Builder.blockCount_terminate ..).symm
  valueCount := Nat.le_of_eq (Builder.valueCount_terminate ..).symm
  script _ := ⟨[], (List.append_nil _).symm⟩
  left _ hb := by
    rw [show (σ.terminate t).current = σ.current from Builder.current_terminate ..]
    exact hb
  frozen _ _ := rfl
  info _ _ := Builder.valueInfo_terminate ..
  frame {v} _ := by
    have hinfo : (σ.terminate t).builder.valueInfo v = σ.builder.valueInfo v :=
      Builder.valueInfo_terminate ..
    exact ⟨congrArg ValueInfo.ty hinfo, congrArg ValueInfo.block hinfo⟩
  owner _ := rfl
  phis {b v} hv := by rw [(info_terminate σ t b).1]; exact hv
  spine _ := rfl
  isSealed := id
  preds hb := preds_terminate ht (.inl hb)
  terminator {b t'} ht := by
    rw [terminator?_terminate h, if_neg]
    · exact ht
    · rintro rfl
      rw [hopen] at ht
      cases ht
  insts {b t'} _ := (info_terminate σ t b).2
  placed b := ⟨[], by rw [List.append_nil, (info_terminate σ t b).2]⟩
  type := id
  signature := Builder.signature_terminate ..
  label {b} hb := by
    rw [show (σ.terminate t).builder.info b = _ from Builder.info_terminate σ.builder t b hb]
  run := ⟨[.terminate t], rfl⟩

theorem Sound.terminate {σ : Plan} (h : σ.Sound) (hopen : σ.terminator? σ.current = none)
    {t : Terminator} (ht : σ.MayLead t.successors) (hcall : endCall? (some t) = none)
    (hoperands : ∀ u ∈ endOperands t, σ.Has σ.current u) : (σ.terminate t).Sound := by
  have e := extends_terminate h hopen ht
  have hterm := terminator?_terminate h t
  refine h.grow e (h.record.builds (Recording.builds_terminate h.record (mayEnd hopen ht)))
    (fun _ _ => rfl) ?_
    (fun _ => .inl rfl) ?_ (edges_terminate h ht) ?_ .inl ?_ ?_
    (fun hscript => .inl ⟨_, hscript⟩) ?_
  · rw [preds_terminate ht (.inr rfl)]
    exact h.start.2
  · have hcurrent : (σ.terminate t).current = σ.current := Builder.current_terminate ..
    rw [hcurrent]
    exact h.used
  · intro q c hsealed hp _
    rw [preds_terminate ht (.inl hsealed)] at hp
    exact ⟨hsealed, hp⟩
  · intro b
    rw [(info_terminate σ t b).2, hterm]
    by_cases hb : b = σ.current
    · rw [if_pos hb, hcall]
      have := h.insts b
      rw [hb, hopen] at this
      rw [hb]
      exact this
    · rw [if_neg hb]
      exact h.insts b
  · intro v b hv
    rw [(info_terminate σ t b).1] at hv
    exact .inl hv
  · intro b t' ht'
    rw [hterm] at ht'
    split at ht'
    · next hb =>
      cases ht'
      rw [hb]
      exact .inr ⟨h.used, fun u hu => ((hoperands u hu).usable h).mono e fun _ => id⟩
    · exact .inl ht'

end Plan

/-! ## Calls with a handler -/

namespace Plan

/-- The plan in which the current block ends with a call that may fault. -/
def invoke (σ : Plan) (callee : String) (arguments : List Value) (result : Ty)
    (normal unwind : Block) : Plan :=
  { σ with record := σ.record.step (.invoke callee arguments result normal unwind) }

/-- The plan with the call, which stands in no list of instructions. -/
def withCall (σ : Plan) (callee : String) (arguments : List Value) (result : Ty) : Plan :=
  { σ with record := σ.record.withCall (.call callee arguments) result }

theorem valueInfo_invoke (σ : Plan) (callee : String) (arguments : List Value) (result : Ty)
    (normal unwind : Block) (v : Value) :
    (σ.invoke callee arguments result normal unwind).builder.valueInfo v =
      if v.index = σ.builder.valueCount then ⟨result, .call callee arguments, σ.current⟩
      else σ.builder.valueInfo v := by
  have hterm : (σ.invoke callee arguments result normal unwind).builder.valueInfo v =
      (σ.withCall callee arguments result).builder.valueInfo v := Builder.valueInfo_terminate ..
  rw [hterm]
  exact Builder.valueInfo_newValue σ.builder (.call callee arguments) result σ.current v

theorem script_invoke (σ : Plan) (callee : String) (arguments : List Value) (result : Ty)
    (normal unwind : Block) : (σ.invoke callee arguments result normal unwind).record.script =
      Recording.happen σ.record.script σ.current (.inst ⟨σ.builder.valueCount⟩) := rfl

variable {σ : Plan} {callee : String} {arguments : List Value} {result : Ty}
  {normal unwind : Block}

theorem record_withCall (h : σ.Sound) : (σ.withCall callee arguments result).record.Sound :=
  h.record.builds (Recording.builds_withCall h.record (.call callee arguments) result)

theorem valueCount_invoke : (σ.invoke callee arguments result normal unwind).builder.valueCount =
    σ.builder.valueCount + 1 := by
  have h1 : (σ.invoke callee arguments result normal unwind).builder.valueCount =
      (σ.withCall callee arguments result).builder.valueCount := Builder.valueCount_terminate ..
  rw [h1]
  simp [withCall, Recording.withCall, Builder.valueCount, Builder.newValue]

theorem terminator?_invoke (h : σ.Sound) (b : Block) :
    (σ.invoke callee arguments result normal unwind).terminator? b =
      if b = σ.current then some (.invoke ⟨σ.builder.valueCount⟩ normal unwind)
      else σ.terminator? b := by
  by_cases hlt : b.index < σ.builder.blockCount
  · have hinfo : (σ.invoke callee arguments result normal unwind).builder.info b = _ :=
      Builder.info_terminate (σ.withCall callee arguments result).builder _ b hlt
    unfold terminator?
    rw [hinfo]
    rfl
  · have hle := Nat.not_lt.1 hlt
    have hne : b ≠ σ.current := fun hb => hlt (hb ▸ h.record.current)
    rw [if_neg hne]
    have hle' : (σ.invoke callee arguments result normal unwind).builder.function.blocks.size ≤
        b.index := by
      have := Builder.blockCount_terminate (σ.withCall callee arguments result).builder
        (.invoke ⟨σ.builder.valueCount⟩ normal unwind)
      exact Nat.le_trans (Nat.le_of_eq this) hle
    have h1 : (σ.invoke callee arguments result normal unwind).builder.info b = default :=
      Flow.Function.block_of_le hle'
    have h2 : σ.builder.info b = default := Flow.Function.block_of_le hle
    unfold terminator?
    rw [h1, h2]

theorem info_invoke (b : Block) :
    ((σ.invoke callee arguments result normal unwind).builder.info b).phis =
        (σ.builder.info b).phis ∧
      ((σ.invoke callee arguments result normal unwind).builder.info b).insts =
        (σ.builder.info b).insts :=
  info_terminate (σ.withCall callee arguments result) _ b

theorem extends_invoke (h : σ.Sound) (hopen : σ.terminator? σ.current = none)
    (ht : σ.MayLead [normal, unwind]) :
    Extends σ (σ.invoke callee arguments result normal unwind) where
  blockCount := Nat.le_of_eq (Builder.blockCount_terminate
    (σ.withCall callee arguments result).builder _).symm
  valueCount := by rw [valueCount_invoke]; exact Nat.le_succ _
  script b := by
    rw [script_invoke]
    by_cases hb : b = σ.current
    · exact ⟨[.inst ⟨σ.builder.valueCount⟩], by rw [hb, Recording.happen_self]⟩
    · exact ⟨[], by rw [Recording.happen_of_ne _ _ hb, List.append_nil]⟩
  left _ hb := by
    rw [show (σ.invoke callee arguments result normal unwind).current = σ.current from
      Builder.current_terminate ..]
    exact hb
  frozen {b t} _ hb := by rw [script_invoke, Recording.happen_of_ne _ _ hb]
  info {v} hv _ := by rw [valueInfo_invoke, if_neg (Nat.ne_of_lt hv)]
  frame {v} hv := by
    have hinfo : (σ.invoke callee arguments result normal unwind).builder.valueInfo v =
        σ.builder.valueInfo v := by
      rw [valueInfo_invoke, if_neg (Nat.ne_of_lt hv)]
    exact ⟨congrArg ValueInfo.ty hinfo, congrArg ValueInfo.block hinfo⟩
  owner _ := rfl
  phis {b v} hv := by rw [(info_invoke b).1]; exact hv
  spine _ := rfl
  isSealed := id
  preds hb := preds_terminate (σ := σ.withCall callee arguments result)
    (t := .invoke ⟨σ.builder.valueCount⟩ normal unwind) ht (.inl hb)
  terminator {b t} ht := by
    rw [terminator?_invoke h, if_neg]
    · exact ht
    · rintro rfl
      rw [hopen] at ht
      cases ht
  insts {b t} _ := (info_invoke b).2
  placed b := ⟨[], by rw [List.append_nil, (info_invoke b).2]⟩
  type := id
  signature := Builder.signature_terminate (σ.withCall callee arguments result).builder _
  label {b} hb := by
    rw [show (σ.invoke callee arguments result normal unwind).builder.info b = _ from
      Builder.info_terminate (σ.withCall callee arguments result).builder _ b hb]
    rfl
  run := ⟨[.invoke callee arguments result normal unwind], rfl⟩

/-- The result can be used in the blocks behind the current one. -/
theorem has_invoke (h : σ.Sound) : (σ.invoke callee arguments result normal unwind).Has σ.current
    ⟨σ.builder.valueCount⟩ := by
  have hinfo := valueInfo_invoke σ callee arguments result normal unwind ⟨σ.builder.valueCount⟩
  rw [if_pos rfl] at hinfo
  unfold Has
  rw [hinfo]
  refine ⟨h.own h.used, .inl ?_⟩
  rw [script_invoke, Recording.happen_self]
  simp

theorem Sound.invoke (h : σ.Sound) (hopen : σ.terminator? σ.current = none)
    (ht : σ.MayLead [normal, unwind]) (hoperands : ∀ u ∈ arguments, σ.Has σ.current u) :
    (σ.invoke callee arguments result normal unwind).Sound := by
  have e : Extends σ (σ.invoke callee arguments result normal unwind) := extends_invoke h hopen ht
  have hterm : ∀ b, (σ.invoke callee arguments result normal unwind).terminator? b = _ :=
    terminator?_invoke h
  have hcall : (σ.withCall callee arguments result).record.Sound := record_withCall h
  have hmem : ∀ {q c}, q ∈ (σ.invoke callee arguments result normal unwind).builder.preds c ↔
      q ∈ σ.builder.preds c ∨ q = σ.current ∧ c ∈ [normal, unwind] :=
    mem_preds_terminate (σ := σ.withCall callee arguments result)
      (t := .invoke ⟨σ.builder.valueCount⟩ normal unwind) fun c hc => (ht c hc).1
  have hkept : ∀ {c}, σ.known.isSealed c = true ∨ c = Flow.Function.entry →
      (σ.invoke callee arguments result normal unwind).builder.preds c = σ.builder.preds c :=
    preds_terminate (σ := σ.withCall callee arguments result)
      (t := .invoke ⟨σ.builder.valueCount⟩ normal unwind) ht
  refine h.grow e (hcall.builds (Recording.builds_terminate hcall (mayEnd hopen ht)))
    (fun b hb => by rw [script_invoke, Recording.happen_of_ne _ _ hb]) ?_
    (fun _ => .inl rfl) ?_ ?_ ?_ .inl ?_ ?_ ?_ ?_
  · rw [hkept (.inr rfl)]
    exact h.start.2
  · have hcurrent : (σ.invoke callee arguments result normal unwind).current = σ.current :=
      Builder.current_terminate ..
    rw [hcurrent]
    exact h.used
  · intro q c hq
    rcases hmem.1 hq with hq | ⟨rfl, hc⟩
    · exact .inl hq
    · exact .inr ⟨h.used, (ht c hc).2.2.2⟩
  · intro q c hsealed hp _
    rw [hkept (.inl hsealed)] at hp
    exact ⟨hsealed, hp⟩
  · intro b
    rw [script_invoke, (info_invoke b).2, hterm]
    by_cases hb : b = σ.current
    · rw [if_pos hb, hb, Recording.happen_self, List.filterMap_append, h.insts, hopen]
      simp [Event.inst?, endCall?]
    · rw [if_neg hb, Recording.happen_of_ne _ _ hb]
      exact h.insts b
  · intro v b hv
    rw [(info_invoke b).1] at hv
    exact .inl hv
  · intro b front v back hscript
    rw [script_invoke] at hscript
    rcases Recording.split_happen hscript with hold | ⟨rfl, he, hfront⟩
    · exact .inl hold
    · cases he
      right
      intro u hu
      change u ∈ ((σ.invoke callee arguments result normal unwind).builder.valueInfo
        ⟨σ.builder.valueCount⟩).inst.operands at hu
      rw [valueInfo_invoke, if_pos rfl] at hu
      rw [← hfront]
      exact ((hoperands u hu).usable h).mono e fun _ => id
  · intro b t ht'
    rw [hterm] at ht'
    split at ht'
    · next hb =>
      cases ht'
      rw [hb]
      exact .inr ⟨h.used, by simp [endOperands]⟩
    · exact .inl ht'

/-! ## Variables -/

/-- The plan with a variable written in the current block. -/
def write (σ : Plan) (x : SymbolId) (v : Value) : Plan :=
  { σ with record := σ.record.step (.write x σ.current v) }

/-- The plan with the type of a variable. -/
def declare (σ : Plan) (x : SymbolId) (ty : Ty) : Plan :=
  { σ with record := σ.record.step (.declare x ty) }

theorem extends_write (σ : Plan) (x : SymbolId) (v : Value) :
    Extends σ (σ.write x v) where
  blockCount := Nat.le_refl _
  valueCount := Nat.le_refl _
  script c := by
    show ∃ later, Recording.happen σ.record.script σ.current (.write x v) c = _
    by_cases hc : c = σ.current
    · exact ⟨[.write x v], by rw [hc, Recording.happen_self]⟩
    · exact ⟨[], by rw [Recording.happen_of_ne _ _ hc, List.append_nil]⟩
  info _ _ := rfl
  frame _ := ⟨rfl, rfl⟩
  owner _ := rfl
  phis := id
  spine _ := rfl
  isSealed := id
  preds _ := rfl
  terminator := id
  left _ := id
  frozen {b t} _ hb := Recording.happen_of_ne _ _ hb
  insts _ := rfl
  placed _ := List.prefix_rfl
  type := id
  signature := ⟨rfl, rfl⟩
  label _ := rfl
  run := ⟨[.write x σ.current v], rfl⟩

/-- A block that leads to no sealed block has not been resolved through. -/
theorem Sound.not_through (h : σ.Sound) {b : Block}
    (hb : ∀ c ∈ σ.builder.function.successors b, σ.known.isSealed c = false) (x : SymbolId)
    (c : Block) : ¬ σ.record.through x b c := by
  intro hthrough
  obtain ⟨hpred, hsealed, -⟩ := h.record.through hthrough
  have := hb c ((h.record.edges.mem b c).2 hpred)
  have hsealed' : σ.known.isSealed c = true := hsealed
  rw [this] at hsealed'
  cases hsealed'

theorem Sound.write (h : σ.Sound) {x : SymbolId} {v : Value} (hv : σ.Has σ.current v)
    (hb : ∀ c ∈ σ.builder.function.successors σ.current, σ.known.isSealed c = false) :
    (σ.write x v).Sound := by
  have e := extends_write σ x v
  refine h.grow e (h.record.write v (h.not_through hb x))
    (fun b hb => Recording.happen_of_ne _ _ hb) h.start.2 (fun _ => .inl rfl) h.used .inl
    (fun hsealed hp _ => ⟨hsealed, hp⟩) ?_ ?_ .inl ?_ .inl
  · intro y c r hr
    have hr' : (σ.known.write x σ.current v).value? y c = some r := hr
    rw [Variables.value?_write_eq] at hr'
    split at hr'
    · next hc =>
      cases hr'
      rw [hc.2]
      exact .inr (hv.mono h e)
    · exact .inl hr'
  · intro c
    show (Recording.happen σ.record.script σ.current (.write x v) c).filterMap Event.inst? = _
    by_cases hc : c = σ.current
    · rw [hc, Recording.happen_self, List.filterMap_append]
      have hnone : [Event.write x v].filterMap Event.inst? = [] := rfl
      rw [hnone, List.append_nil]
      exact h.insts _
    · rw [Recording.happen_of_ne _ _ hc]
      exact h.insts c
  · intro c front e' back hscript
    rcases Recording.split_happen hscript with hold | ⟨rfl, rfl, hfront⟩
    · exact .inl hold
    · right
      intro u hu
      rw [List.mem_singleton.1 hu, ← hfront]
      exact (hv.usable h).mono e fun _ => id

theorem extends_declare (h : σ.Sound) (x : SymbolId) (ty : Ty) : Extends σ (σ.declare x ty) where
  blockCount := Nat.le_refl _
  valueCount := Nat.le_refl _
  script _ := ⟨[], (List.append_nil _).symm⟩
  info _ _ := rfl
  frame _ := ⟨rfl, rfl⟩
  owner _ := rfl
  phis := id
  spine _ := rfl
  isSealed := id
  preds _ := rfl
  terminator := id
  left _ := id
  frozen _ _ := rfl
  insts _ := rfl
  placed _ := List.prefix_rfl
  type := (Recording.builds_declare h.record x ty).type
  signature := ⟨rfl, rfl⟩
  label _ := rfl
  run := ⟨[.declare x ty], rfl⟩

theorem Sound.declare (h : σ.Sound) (x : SymbolId) (ty : Ty) : (σ.declare x ty).Sound :=
  h.grow (extends_declare h x ty) (h.record.builds (Recording.builds_declare h.record x ty))
    (fun _ _ => rfl) h.start.2 (fun _ => .inl rfl) h.used .inl
    (fun hsealed hp _ => ⟨hsealed, hp⟩) .inl h.insts .inl (fun hscript => .inl ⟨_, hscript⟩) .inl

end Plan

/-! ## Reading and sealing -/

namespace Plan

open Recording (Searches)

variable {σ : Plan} {R' : Recording} {P : SymbolId → Block → Prop} {closing? : Option Block}
  {before after : Draft}

theorem extends_search (hs : Searches P closing? σ.record R' before after)
    (hscript : ∀ b, ∃ later, R'.script b = σ.record.script b ++ later)
    (hother : ∀ b, b ≠ σ.current → R'.script b = σ.record.script b)
    (hrun : ∃ ops, R' = σ.record.run ops) : Extends σ ⟨R', σ.spine⟩ where
  blockCount := by
    show σ.builder.blockCount ≤ R'.draft.builder.blockCount
    rw [hs.builder', hs.grows.blockCount, hs.builder]
  valueCount := by
    show σ.builder.valueCount ≤ R'.draft.builder.valueCount
    rw [hs.builder']
    have := hs.grows.valueCount
    rwa [hs.builder] at this
  script := hscript
  left _ hb := by
    show _ ≠ R'.draft.builder.current
    rw [hs.builder', hs.grows.current, hs.builder]
    exact hb
  frozen {b t} _ hb := hother b hb
  info {v} hv hnone := by
    show R'.draft.builder.valueInfo v = _
    rw [hs.builder']
    have hv' : v.index < before.builder.valueCount := by rw [hs.builder]; exact hv
    rcases hs.grows.valueInfo v hv' with he | ⟨howner, -⟩
    · rw [he, hs.builder]
    · rw [hs.owner] at howner
      have hnone' : σ.record.draft.known.owner? v = none := hnone
      rw [hnone'] at howner
      cases howner
  frame {v} hv := by
    have hv' : v.index < before.builder.valueCount := by rw [hs.builder]; exact hv
    have hty := hs.grows.ty_eq hv'
    have hblock := hs.grows.block_eq hv'
    rw [hs.builder, ← hs.builder'] at hty hblock
    exact ⟨hty, hblock⟩
  owner {v} hv := by
    show R'.draft.known.owner? v = σ.record.draft.known.owner? v
    rw [hs.owner']
    cases hold : σ.record.draft.known.owner? v with
    | some x => exact hs.grows.owner (by rw [hs.owner]; exact hold)
    | none =>
        cases hnew : after.known.owner? v with
        | none => rfl
        | some x =>
            rcases hs.grows.newOwner hnew with h' | h'
            · rw [hs.owner, hold] at h'
              cases h'
            · rw [hs.builder] at h'
              exact absurd hv (Nat.not_lt.2 h')
  phis hv := hs.mem_phis hv
  spine _ := rfl
  isSealed hb := (hs.isSealed' _).2 (.inl hb)
  preds _ := hs.preds _
  terminator {b t} ht := (hs.terminator b).trans ht
  insts {b t} _ := by
    obtain ⟨new, hinfo, -⟩ := hs.grows.info b
    rw [← hs.builder', hs.builder] at hinfo
    show (R'.draft.builder.info b).insts = _
    rw [hinfo]
  placed b := by
    obtain ⟨new, hinfo, -⟩ := hs.grows.info b
    rw [← hs.builder', hs.builder] at hinfo
    show (σ.builder.info b).insts.toList <+: (R'.draft.builder.info b).insts.toList
    exact hinfo.symm ▸ List.prefix_rfl
  type {x ty} hx := by
    show R'.draft.known.types[x]? = some ty
    rw [hs.types]
    exact hx
  signature := by
    show R'.draft.builder.function.name = _ ∧ R'.draft.builder.function.params = _
    rw [hs.builder', hs.grows.name, hs.grows.params, hs.builder]
    exact ⟨rfl, rfl⟩
  label {b} _ := by
    obtain ⟨new, hinfo, -⟩ := hs.grows.info b
    rw [← hs.builder', hs.builder] at hinfo
    show (R'.draft.builder.info b).label = _
    rw [hinfo]
  run := hrun

/-- A search keeps a plan in order: it goes through blocks in use only, and what it finds in a
block is defined on every way to it. -/
theorem Sound.search (h : σ.Sound) (hs : Searches P closing? σ.record R' before after)
    (hscript : ∀ b, ∃ later, R'.script b = σ.record.script b ++ later ∧
      ∀ e ∈ later, ∃ x v, e = .read x v)
    (hother : ∀ b, b ≠ σ.current → R'.script b = σ.record.script b)
    (hrun : ∃ ops, R' = σ.record.run ops) (hP : ∀ {x c}, P x c → σ.spine c ≠ [])
    (hclosing : ∀ {b q}, closing? = some b → σ.builder.preds b = [q] → σ.spine b = []) :
    Sound ⟨R', σ.spine⟩ := by
  have e := extends_search hs (fun b => (hscript b).imp fun _ h => h.1) hother hrun
  have record : R'.Sound := h.record.searched hs
  have hinfo : ∀ b, ∃ new, R'.draft.builder.info b =
      { σ.builder.info b with phis := (σ.builder.info b).phis ++ new } := by
    intro b
    obtain ⟨new, hinfo, -⟩ := hs.grows.info b
    rw [← hs.builder', hs.builder] at hinfo
    exact ⟨new, hinfo⟩
  have harrives : ∀ {x c v}, Draft.Arrives before after x c v → σ.spine c ≠ [] →
      Has ⟨R', σ.spine⟩ c v := by
    intro x c v ha hc
    induction ha with
    | kept hvalue =>
        rw [hs.value] at hvalue
        exact (h.bound hvalue).mono h e
    | phi hmem howner =>
        rw [← hs.builder'] at hmem
        have hblock := (record.phis hmem).2
        unfold Has
        rw [show (Plan.builder ⟨R', σ.spine⟩).valueInfo _ = R'.draft.builder.valueInfo _ from rfl,
          hblock]
        exact ⟨h.own hc, .inr hmem⟩
    | @chain b q v hsealed hpreds _ ih =>
        have hpreds' : σ.builder.preds b = [q] := by
          rw [hs.grows.preds, hs.builder] at hpreds
          exact hpreds
        have hsealed' : σ.known.isSealed b = true := by
          rw [hs.grows.isSealed, hs.isSealed] at hsealed
          exact hsealed
        have hq : σ.spine q ≠ [] := h.open_source (by rw [hpreds']; simp)
        have hchain := h.chain hsealed' hpreds' hc
        obtain ⟨hmem, hlisted⟩ := ih hq
        refine ⟨?_, hlisted⟩
        show _ ∈ σ.spine b
        rw [hchain]
        exact List.mem_cons_of_mem _ hmem
  refine h.grow e record hother ?_ (fun _ => .inl rfl) ?_ ?_ ?_ ?_ ?_ ?_ ?_ ?_
  · show R'.draft.builder.preds _ = []
    rw [hs.preds]
    exact h.start.2
  · show σ.spine R'.draft.builder.current ≠ []
    rw [hs.builder', hs.grows.current, hs.builder]
    exact h.used
  · intro q c hq
    have hq' : q ∈ R'.draft.builder.preds c := hq
    rw [hs.preds] at hq'
    exact .inl hq'
  · intro q c hsealed hp hc
    have hp' : R'.draft.builder.preds c = [q] := hp
    rw [hs.preds] at hp'
    rcases (hs.isSealed' c).1 hsealed with hsealed' | hsealed'
    · exact ⟨hsealed', hp'⟩
    · exact absurd (hclosing hsealed' hp') hc
  · intro x b r hr
    have hr' : R'.draft.known.value? x b = some r := hr
    rw [hs.value'] at hr'
    cases hold : σ.record.draft.known.value? x b with
    | some r' =>
        have hkept := hs.value_some hold
        rw [hs.value', hr'] at hkept
        exact .inl hkept.symm
    | none =>
        have hopened := hP (hs.grows.newValue (by rw [hs.value]; exact hold) hr').1
        exact .inr (harrives (hs.grows.arrives hr') hopened)
  · intro b
    obtain ⟨new, hinfo⟩ := hinfo b
    show (R'.script b).filterMap Event.inst? = (R'.draft.builder.info b).insts.toList ++
      (endCall? (R'.draft.builder.info b).terminator?).toList
    rw [hs.insts, hinfo]
    exact h.insts b
  · intro v b hv
    rcases hs.phis hv with hv | ⟨-, -, -, x, howner, -, hPx, hmerge⟩
    · exact .inl hv
    · refine .inr ⟨?_, hP hPx, fun q hsealed hp => ?_⟩
      · show R'.draft.known.owner? v ≠ none
        rw [howner]
        simp
      · have hp' : R'.draft.builder.preds b = [q] := hp
        rw [hs.preds] at hp'
        rcases (hs.isSealed' b).1 hsealed with hsealed' | hsealed'
        · exact hmerge hsealed' q hp'
        · exact hP hPx (hclosing hsealed' hp')
  · intro b front e' back hsplit
    obtain ⟨later, hlater, hreads⟩ := hscript b
    have hsplit' : R'.script b = front ++ e' :: back := hsplit
    rw [hlater] at hsplit'
    -- A search adds reads only, and these need nothing.
    have hread : e' ∈ later → ∀ u ∈ Plan.operands ⟨R', σ.spine⟩ e', Usable ⟨R', σ.spine⟩ b front u := by
      intro hmem u hu
      obtain ⟨x, v, rfl⟩ := hreads e' hmem
      cases hu
    rcases List.append_eq_append_iff.1 hsplit' with ⟨a, ha, hb⟩ | ⟨a, ha, hb⟩
    · exact .inr (hread (by rw [hb]; simp))
    · cases a with
      | nil => exact .inr (hread (by rw [List.nil_append] at hb; rw [← hb]; simp))
      | cons first rest =>
          rw [List.cons_append] at hb
          cases hb
          exact .inl ⟨rest, ha⟩
  · intro b t ht
    obtain ⟨new, hinfo⟩ := hinfo b
    have ht' : (R'.draft.builder.info b).terminator? = some t := ht
    rw [hinfo] at ht'
    exact .inl ht'

/-- The plan after a read in the current block. -/
def read (σ : Plan) (x : SymbolId) (v : Value) (draft : Draft) : Plan :=
  { σ with record := σ.record.afterRead x σ.current v draft }

/-- A search starts from a block in use, and so goes through blocks in use only. -/
theorem Sound.visits (h : σ.Sound) {x : SymbolId} {b c : Block} (hb : σ.spine b ≠ [])
    (hc : σ.record.draft.Visits x b c) : σ.spine c ≠ [] := by
  cases hc with
  | start => exact hb
  | back _ _ _ hq => exact h.open_source hq

theorem Sound.read (h : σ.Sound) {x : SymbolId} {v : Value} {draft : Draft}
    (hread : (Drafting.read x σ.current).on σ.record.draft = (.ok v, draft)) :
    (σ.read x v draft).Sound ∧ Extends σ (σ.read x v draft) ∧
      (σ.read x v draft).Has σ.current v ∧ (σ.read x v draft).current = σ.current := by
  have hs := Recording.searches_read h.record h.record.current hread
  have hscript : ∀ b, ∃ later, (σ.record.afterRead x σ.current v draft).script b =
      σ.record.script b ++ later ∧ ∀ e ∈ later, ∃ y w, e = .read y w := by
    intro b
    show ∃ later, Recording.happen σ.record.script σ.current (.read x v) b = _ ∧ _
    by_cases hb : b = σ.current
    · exact ⟨[.read x v], by rw [hb, Recording.happen_self], by simp⟩
    · exact ⟨[], by rw [Recording.happen_of_ne _ _ hb, List.append_nil], by simp⟩
  have hother : ∀ b, b ≠ σ.current → (σ.record.afterRead x σ.current v draft).script b =
      σ.record.script b := fun b hb => Recording.happen_of_ne _ _ hb
  have hrun : ∃ ops, σ.record.afterRead x σ.current v draft = σ.record.run ops :=
    ⟨[.read x σ.current], (Recording.step_read_ok hread).symm⟩
  have hsound : (σ.read x v draft).Sound := h.search hs hscript hother hrun
    (fun hP => h.visits h.used hP.2) (by simp)
  refine ⟨hsound, extends_search hs (fun b => (hscript b).imp fun _ h => h.1) hother hrun, ?_,
    hs.grows.current⟩
  refine hsound.bound (x := x) ?_
  obtain ⟨-, -, hvalue⟩ :=
    Drafting.read_spec (Recording.region_read h.record h.record.current) h.record.coherent
      ⟨rfl, .start σ.current⟩ hread
  exact hvalue

/-- The plan after a block has been sealed. -/
def sealed (σ : Plan) (b : Block) (draft : Draft) : Plan :=
  { σ with record := σ.record.afterSeal b draft }

/-- A block can be sealed, unless it is in use already and only one edge leads there. -/
theorem Sound.sealBlock (h : σ.Sound) {b : Block} {draft : Draft}
    (hb : b.index < σ.builder.blockCount)
    (hone : ∀ q, σ.builder.preds b = [q] → σ.spine b = [])
    (hseal : (Drafting.sealBlock b).on σ.record.draft = (.ok (), draft)) :
    (σ.sealed b draft).Sound ∧ Extends σ (σ.sealed b draft) ∧
      (σ.sealed b draft).current = σ.current ∧
      (∀ c, (σ.sealed b draft).known.isSealed c = true ↔ σ.known.isSealed c = true ∨ b = c) ∧
      (∀ c, (σ.sealed b draft).builder.preds c = σ.builder.preds c) ∧
      ∀ c, (σ.sealed b draft).terminator? c = σ.terminator? c := by
  obtain ⟨d₁, hs⟩ := Recording.searches_seal h.record hb hseal
  have hscript : ∀ c, ∃ later, (σ.record.afterSeal b draft).script c =
      σ.record.script c ++ later ∧ ∀ e ∈ later, ∃ y w, e = .read y w :=
    fun _ => ⟨[], (List.append_nil _).symm, by simp⟩
  have hother : ∀ c, c ≠ σ.current → (σ.record.afterSeal b draft).script c =
      σ.record.script c := fun _ _ => rfl
  have hrun : ∃ ops, σ.record.afterSeal b draft = σ.record.run ops :=
    ⟨[.sealBlock b], (Recording.step_sealBlock_ok hseal).symm⟩
  have hsound : (σ.sealed b draft).Sound := h.search hs hscript hother hrun
    (fun hP => by
      obtain ⟨-, start, hstart, hvisits⟩ := hP
      exact h.visits (h.open_source hstart) hvisits)
    (fun hc hp => by
      cases hc
      exact hone _ hp)
  refine ⟨hsound, extends_search hs (fun c => (hscript c).imp fun _ h => h.1) hother hrun, ?_, ?_,
    hs.preds, ?_⟩
  · show draft.builder.current = _
    rw [show draft.builder = d₁.builder from hs.builder', hs.grows.current]
    rfl
  · intro c
    rw [show (σ.sealed b draft).known.isSealed c = true ↔ _ from hs.isSealed' c, Option.some.injEq]
  · exact hs.terminator

end Plan
/-! ## The start -/

namespace Plan

open Recording (info_start)

/-- The plan of a function in which nothing has been done. -/
def start (name : String) (params : List Ty) (result : Ty) : Plan where
  record := Recording.start name params result
  spine b := if b = Flow.Function.entry then [Flow.Function.entry] else []

theorem spine_entry (name : String) (params : List Ty) (result : Ty) :
    (start name params result).spine Flow.Function.entry = [Flow.Function.entry] := by
  simp [start]

theorem spine_start {name : String} {params : List Ty} {result : Ty} {b : Block}
    (h : (start name params result).spine b ≠ []) : b = Flow.Function.entry := by
  by_contra hb
  exact h (if_neg hb)

theorem sound_start (name : String) (params : List Ty) (result : Ty) :
    (start name params result).Sound := by
  have hinfo : ∀ b, (start name params result).builder.info b = _ :=
    info_start name params result
  have hpreds : ∀ b, (start name params result).builder.preds b = [] := by
    intro b
    show ((start name params result).builder.info b).preds = []
    rw [hinfo]
    split <;> rfl
  have hterm : ∀ b, (start name params result).terminator? b = none := by
    intro b
    unfold terminator?
    rw [hinfo]
    split <;> rfl
  have hphis : ∀ b, ((start name params result).builder.info b).phis = [] := by
    intro b
    rw [hinfo]
    split <;> rfl
  constructor
  case record => exact Recording.sound_start name params result
  case own =>
    intro b hb
    rw [spine_start hb, spine_entry]
    simp
  case start => exact ⟨spine_entry .., hpreds _⟩
  case used =>
    show (start name params result).spine Flow.Function.entry ≠ []
    rw [spine_entry]
    simp
  case fresh =>
    intro b hb
    by_contra hne
    rw [spine_start hne] at hb
    cases hb
  case begun =>
    intro b hb
    refine ⟨if_neg fun hb' => ?_, hphis b⟩
    rw [hb', spine_entry] at hb
    cases hb
  case open_source =>
    intro q c hq
    rw [hpreds] at hq
    cases hq
  case edge =>
    intro q c hq
    rw [hpreds] at hq
    cases hq
  case chain =>
    intro q c _ hp
    rw [hpreds] at hp
    cases hp
  case plain => exact fun _ _ => hphis _
  case bound =>
    intro x b r hr
    simp [start, Recording.start, Variables.empty, Variables.value?] at hr
  case insts =>
    intro b
    rw [hterm, hinfo]
    show List.filterMap Event.inst? (if b = Flow.Function.entry then _ else _) = _
    split
    · simp [Builder.entryInfo, endCall?, List.filterMap_map, Event.inst?, Function.comp_def]
    · rfl
  case owned =>
    intro v b hv
    rw [hphis] at hv
    cases hv
  case uses =>
    intro b front e back hscript u hu
    have he : e ∈ (Recording.start name params result).script b := by
      rw [show (Recording.start name params result).script b = _ from hscript]
      simp
    obtain ⟨v, rfl⟩ : ∃ v, e = .inst v := by
      change e ∈ (if b = Flow.Function.entry then _ else _) at he
      split at he
      · obtain ⟨i, -, rfl⟩ := List.mem_map.1 he
        exact ⟨_, rfl⟩
      · cases he
    have hlt : v.index < (Builder.paramValues params).size :=
      ((Recording.sound_start name params result).listed he).1
    have hinst : ((start name params result).builder.valueInfo v).inst.operands = [] := by
      show ((Builder.paramValues params).getD v.index default).inst.operands = []
      rw [Array.getD_eq_getD_getElem?, Array.getElem?_eq_getElem hlt]
      simp [Builder.paramValues, Inst.operands]
    change u ∈ ((start name params result).builder.valueInfo v).inst.operands at hu
    rw [hinst] at hu
    cases hu
  case ends =>
    intro b t ht
    rw [hterm] at ht
    cases ht

/-! ## Dominance -/

/-- The blocks of a spine are on every way to its block. -/
theorem Sound.dominates {σ : Plan} (h : σ.Sound) {a b : Block} (ha : a ∈ σ.spine b) :
    σ.builder.function.Dominates a b := by
  intro p hp
  -- Induction on the length: the way to `a` inside of the way to `b` is no longer.
  induction hn : p.length using Nat.strong_induction_on generalizing p a b with
  | _ n ih =>
    cases hp with
    | entry =>
        rw [h.start.1] at ha
        exact ha
    | @edge p q _ hp hedge =>
        have hq : q ∈ σ.builder.preds b := (h.record.edges.mem q b).1 hedge
        have hlen : p.length < n := by
          rw [← hn]
          simp
        have hrec : ∀ {c}, c ∈ σ.spine q → c ∈ p ++ [q] :=
          fun hc => ih p.length hlen hc p hp rfl
        rcases h.edge hq (ne_nil_of_mem ha) with hback | hall
        · -- A way back to `b` has come through `b` before.
          obtain ⟨p', hp', -, hpre⟩ := hp.first (hrec hback)
          have hlen' : p'.length < n := Nat.lt_of_le_of_lt hpre.length_le hlen
          rcases List.mem_append.1 (ih p'.length hlen' ha p' hp' rfl) with hmem | hmem
          · exact List.mem_append_left _ (List.mem_append_left _ (hpre.subset hmem))
          · exact List.mem_append_right _ hmem
        · by_cases hab : a = b
          · rw [hab]
            simp
          · exact List.mem_append_left _ (hrec (hall a ha hab))

/-- A step backwards from a block in use makes the spine shorter. -/
theorem Sound.spine_shorter {σ : Plan} (h : σ.Sound) {c q : Block}
    (hstep : σ.record.draft.StepsBack c q) (hused : σ.spine c ≠ []) :
    (σ.spine q).length < (σ.spine c).length := by
  rw [h.chain hstep.1 hstep.2 hused]
  exact Nat.lt_succ_self _

/-- No cycle consists of sealed blocks with one predecessor each. -/
theorem Sound.acyclic {σ : Plan} (h : σ.Sound) : σ.record.draft.Acyclic := by
  have hpred : ∀ {c q}, σ.record.draft.StepsBack c q → σ.spine q ≠ [] := by
    rintro c q ⟨-, hpreds⟩
    refine h.open_source (c := c) ?_
    rw [show σ.builder.preds c = _ from hpreds]
    exact List.mem_singleton_self q
  have hshorter : ∀ {c q}, Relation.TransGen σ.record.draft.StepsBack c q → σ.spine c ≠ [] →
      σ.spine q ≠ [] ∧ (σ.spine q).length < (σ.spine c).length := by
    intro c q hsteps hused
    induction hsteps with
    | single hcq => exact ⟨hpred hcq, h.spine_shorter hcq hused⟩
    | tail _ hcq ih => exact ⟨hpred hcq, Nat.lt_trans (h.spine_shorter hcq ih.1) ih.2⟩
  intro c hcycle
  -- The last step of the cycle leads to the block, so it is in use.
  obtain ⟨q, -, hlast⟩ := Relation.TransGen.tail'_iff.1 hcycle
  exact Nat.lt_irrefl _ (hshorter hcycle (hpred hlast)).2

end Plan

end Abacus.Lowering
