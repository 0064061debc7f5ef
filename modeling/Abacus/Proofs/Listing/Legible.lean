import Abacus.Proofs.Flow.Placing
import Abacus.Proofs.Listing.Cutting
import Abacus.Proofs.Lowering.Units

/-!
# Legible functions

A listing leaves out what can be seen from the rest: the type of most instructions, and which values of
a block are phis. It writes the names of callees and the labels of blocks without quotes. That is safe
because of what lowering makes: an instruction gets the type that belongs to it, phis stand at the heads
of blocks and nowhere else, an `invoke` ends in a call, and labels and callees are words.

* `Function.Legible` — these properties of a function;
* `Builder.legible_push` and the like — the steps of a builder keep them;
* `Plan.Made.legible` — a function that is lowered is legible if the functions called have names;
* `lowerUnit_readable` — so are the functions of a unit, and every block has an end.
-/

namespace Abacus.Flow

/-- The type that belongs to an instruction. A phi and a call say theirs themselves. -/
def Inst.ty? : Inst → Option Ty
  | intConst _ | param _ | intArith .. | boolToInt _ | floatToInt _ | faultSelector _
  | faultTypeId _ | beginCatch _ => some .int
  | floatConst _ | floatArith .. | intToFloat _ => some .float
  | intCompare .. | floatCompare .. => some .bool
  | faultAlloc .. | landingPad => some .fault
  | reportFault _ | endCatch | callUnexpected _ => some .unit
  | phi _ | call .. => none

/-- The value has the type that belongs to it, and if it is a call, the callee is a word. -/
structure ValueInfo.Fits (info : ValueInfo) : Prop where
  typed : ∀ ty, info.inst.ty? = some ty → info.ty = ty
  callee : ∀ callee arguments, info.inst = .call callee arguments → IsWord callee

/-- What a listing says is enough to know the function. -/
structure Function.Legible (f : Function) : Prop where
  labels : ∀ b, IsWord (f.block b).label
  values : ∀ v, (f.value v).Fits
  phis : ∀ b, ∀ v ∈ (f.block b).phis, v.index < f.values.size ∧ (f.inst v).isPhi = true
  insts : ∀ b, ∀ v ∈ (f.block b).insts, v.index < f.values.size ∧ (f.inst v).isPhi = false
  invokes : ∀ b call normal unwind, (f.block b).terminator? = some (.invoke call normal unwind) →
    call.index < f.values.size ∧ ∃ callee arguments, f.inst call = .call callee arguments

theorem isWord_empty : IsWord "" := fun _ hc => absurd hc (by simp)

theorem fits_default : (default : ValueInfo).Fits := ⟨by rintro ty ⟨⟩; rfl, nofun⟩

/-! ## Steps -/

namespace Builder

variable {b : Builder}

/-- What becomes of a value that was there: nothing, or a phi gets an operand. -/
def Carries (b c : Builder) (v : Value) : Prop :=
  c.valueInfo v = b.valueInfo v ∨
    (b.valueInfo v).inst.isPhi = true ∧ (c.valueInfo v).inst.isPhi = true

/-- A step keeps a function legible if it carries the values on and what it adds is in order. -/
theorem legible_of_step {c : Builder} (h : b.function.Legible) (count : b.valueCount ≤ c.valueCount)
    (carries : ∀ v, v.index < b.valueCount → Carries b c v)
    (added : ∀ v, b.valueCount ≤ v.index → (c.valueInfo v).Fits)
    (labels : ∀ block, IsWord (c.info block).label)
    (phis : ∀ block, ∀ v ∈ (c.info block).phis, v ∈ (b.info block).phis ∨
      v.index < c.valueCount ∧ (c.valueInfo v).inst.isPhi = true)
    (insts : ∀ block, ∀ v ∈ (c.info block).insts, v ∈ (b.info block).insts ∨
      v.index < c.valueCount ∧ (c.valueInfo v).inst.isPhi = false)
    (invokes : ∀ block call normal unwind,
      (c.info block).terminator? = some (.invoke call normal unwind) →
        (b.info block).terminator? = some (.invoke call normal unwind) ∨
          call.index < c.valueCount ∧
            ∃ callee arguments, (c.valueInfo call).inst = .call callee arguments) :
    c.function.Legible where
  labels := labels
  values v := by
    by_cases hv : v.index < b.valueCount
    · rcases carries v hv with hsame | ⟨-, hphi⟩
      · rw [show c.function.value v = b.function.value v from hsame]
        exact h.values v
      · change ValueInfo.Fits (c.valueInfo v)
        generalize c.valueInfo v = info at hphi ⊢
        obtain ⟨ty, inst, block⟩ := info
        cases inst <;> cases hphi
        exact ⟨nofun, nofun⟩
    · exact added v (Nat.not_lt.1 hv)
  phis block v hv := by
    rcases phis block v hv with hold | hnew
    · obtain ⟨hlt, hphi⟩ := h.phis block v hold
      refine ⟨Nat.lt_of_lt_of_le hlt count, ?_⟩
      rcases carries v hlt with hsame | ⟨-, hphi⟩
      · exact (congrArg (fun info => info.inst.isPhi) hsame).trans hphi
      · exact hphi
    · exact hnew
  insts block v hv := by
    rcases insts block v hv with hold | hnew
    · obtain ⟨hlt, hphi⟩ := h.insts block v hold
      refine ⟨Nat.lt_of_lt_of_le hlt count, ?_⟩
      rcases carries v hlt with hsame | ⟨hphi', -⟩
      · exact (congrArg (fun info => info.inst.isPhi) hsame).trans hphi
      · exact absurd hphi' (by rw [show (b.valueInfo v).inst.isPhi = false from hphi]; decide)
    · exact hnew
  invokes block call normal unwind ht := by
    rcases invokes block call normal unwind ht with hold | hnew
    · obtain ⟨hlt, callee, arguments, hcall⟩ := h.invokes block call normal unwind hold
      refine ⟨Nat.lt_of_lt_of_le hlt count, callee, arguments, ?_⟩
      rcases carries call hlt with hsame | ⟨hphi, -⟩
      · exact (congrArg ValueInfo.inst hsame).trans hcall
      · rw [show (b.valueInfo call).inst = _ from hcall] at hphi
        cases hphi
    · exact hnew

theorem fits_of_le (h : b.function.Legible) : ∀ v, b.valueCount ≤ v.index → (b.valueInfo v).Fits :=
  fun v _ => h.values v

theorem legible_start (name : String) (arity : Nat) :
    (start name (List.replicate arity .int) .int).function.Legible := by
  have hvalue : ∀ v : Value, v.index < arity →
      (start name (List.replicate arity .int) .int).function.value v
        = ⟨.int, .param v.index, Function.entry⟩ := by
    intro v hv
    simp [start, paramValues, Function.value, hv]
  have hcount : (start name (List.replicate arity .int) .int).function.values.size = arity := by
    simp [start, paramValues]
  have hblock : ∀ c : Block, (start name (List.replicate arity .int) .int).function.block c =
      if c = Function.entry then entryInfo (List.replicate arity .int) else default := by
    rintro ⟨_ | c⟩ <;> simp [start, Function.block, Function.entry]
  have hword : IsWord "entry" := by
    decide
  constructor
  case labels =>
    intro c
    rw [hblock]
    split
    · exact hword
    · exact isWord_empty
  case values =>
    intro v
    by_cases hv : v.index < arity
    · rw [hvalue v hv]
      constructor
      case typed =>
        rintro ty ⟨⟩
        rfl
      case callee => rintro callee arguments ⟨⟩
    · rw [Function.value_of_le (by omega)]
      exact fits_default
  case phis =>
    intro c v hv
    rw [hblock] at hv
    split at hv <;> exact absurd hv List.not_mem_nil
  case insts =>
    intro c v hv
    rw [hblock] at hv
    split at hv
    · obtain ⟨i, hi, rfl⟩ := Array.mem_map.1 hv
      have hi : i < arity := by simpa using hi
      refine ⟨by rw [hcount]; exact hi, ?_⟩
      unfold Function.inst
      rw [hvalue ⟨i⟩ hi]
      rfl
    · exact absurd hv (Array.not_mem_empty v)
  case invokes =>
    intro c call normal unwind ht
    rw [hblock] at ht
    split at ht <;> cases ht

theorem legible_newBlock (h : b.function.Legible) {label : String} (hlabel : IsWord label) :
    (b.newBlock label).2.function.Legible := by
  have hfresh : ∀ c : Block, c.index = b.blockCount → b.info c = default := fun c hc =>
    Function.block_of_le (Nat.le_of_eq hc.symm)
  refine legible_of_step h (by simp) (fun v _ => .inl rfl) (fits_of_le h) (fun c => ?_)
    (fun c v hv => .inl ?_) (fun c v hv => .inl ?_) (fun c call normal unwind ht => .inl ?_)
  · rw [info_newBlock]
    split
    · exact hlabel
    · exact h.labels c
  · rw [info_newBlock] at hv
    split at hv
    · exact absurd hv List.not_mem_nil
    · exact hv
  · rw [info_newBlock] at hv
    split at hv
    · exact absurd hv (Array.not_mem_empty v)
    · exact hv
  · rw [info_newBlock] at ht
    split at ht
    · cases ht
    · exact ht

/-- A further value that is in order, put into a block by `change`. -/
theorem legible_newValue {inst : Inst} {ty : Ty} {block : Block} (h : b.function.Legible)
    (hfits : (⟨ty, inst, block⟩ : ValueInfo).Fits) :
    (b.newValue inst ty block).2.function.Legible := by
  have hvalue := valueInfo_newValue b inst ty block
  refine legible_of_step h ?_ (fun v hv => .inl ?_) (fun v hv => ?_) h.labels
    (fun c v hv => .inl hv) (fun c v hv => .inl hv) (fun c call normal unwind ht => .inl ht)
  · simp [valueCount, newValue]
  · rw [hvalue, if_neg (Nat.ne_of_lt hv)]
  · rw [hvalue]
    split
    · exact hfits
    · exact h.values v

theorem legible_push {inst : Inst} {ty : Ty} (h : b.function.Legible)
    (hfits : (⟨ty, inst, b.current⟩ : ValueInfo).Fits) (hphi : inst.isPhi = false) :
    (b.push inst ty).2.function.Legible := by
  refine legible_of_step (legible_newValue h hfits) (Nat.le_refl _) (fun v _ => .inl rfl)
    (fits_of_le (legible_newValue h hfits)) (fun c => ?_) (fun c v hv => .inl ?_)
    (fun c v hv => ?_) (fun c call normal unwind ht => .inl ?_)
  · rw [info_push]
    split
    · exact h.labels c
    · exact h.labels c
  · rw [info_push] at hv
    split at hv <;> exact hv
  · rw [info_push] at hv
    split at hv
    · rcases Array.mem_push.1 hv with hv | rfl
      · exact .inl hv
      · refine .inr ⟨by simp, ?_⟩
        rw [valueInfo_push, if_pos rfl]
        exact hphi
    · exact .inl hv
  · rw [info_push] at ht
    split at ht <;> exact ht

theorem legible_phi (h : b.function.Legible) (block : Block) (ty : Ty) :
    (b.phi block ty).2.function.Legible := by
  have hfits : (⟨ty, .phi [], block⟩ : ValueInfo).Fits := ⟨nofun, nofun⟩
  refine legible_of_step (legible_newValue h hfits) (Nat.le_refl _) (fun v _ => .inl rfl)
    (fits_of_le (legible_newValue h hfits)) (fun c => ?_) (fun c v hv => ?_)
    (fun c v hv => .inl ?_) (fun c call normal unwind ht => .inl ?_)
  · rw [info_phi]
    split
    · exact h.labels c
    · exact h.labels c
  · rw [info_phi] at hv
    split at hv
    · rcases List.mem_append.1 hv with hv | hv
      · exact .inl hv
      · rw [List.mem_singleton.1 hv]
        refine .inr ⟨by simp, ?_⟩
        rw [valueInfo_phi, if_pos rfl]
        rfl
    · exact .inl hv
  · rw [info_phi] at hv
    split at hv <;> exact hv
  · rw [info_phi] at ht
    split at ht <;> exact ht

theorem legible_addIncoming (h : b.function.Legible) (phi : Value) (pred : Block) (u : Value) :
    (b.addIncoming phi pred u).function.Legible := by
  have hvalue := valueInfo_addIncoming b phi pred u
  have hcarries : ∀ v, Carries b (b.addIncoming phi pred u) v := by
    intro v
    unfold Carries
    rw [hvalue]
    split
    · unfold addOperand
      split
      · next incoming hinst => exact .inr ⟨by rw [hinst]; rfl, rfl⟩
      · exact .inl rfl
    · exact .inl rfl
  refine legible_of_step h (by simp) (fun v _ => hcarries v) (fun v hv => ?_) h.labels
    (fun c v hv => .inl hv) (fun c v hv => .inl hv) (fun c call normal unwind ht => .inl ht)
  rw [hvalue, if_neg fun hlt => Nat.not_lt.2 hv hlt.2]
  exact h.values v

theorem legible_terminate (h : b.function.Legible) {t : Terminator}
    (ht : ∀ call normal unwind, t = .invoke call normal unwind → call.index < b.valueCount ∧
      ∃ callee arguments, (b.valueInfo call).inst = .call callee arguments) :
    (b.terminate t).function.Legible := by
  have hinfo : ∀ c, ((b.terminate t).info c).label = (b.info c).label ∧
      ((b.terminate t).info c).phis = (b.info c).phis ∧
      ((b.terminate t).info c).insts = (b.info c).insts := by
    intro c
    by_cases hlt : c.index < b.blockCount
    · rw [info_terminate b t c hlt]
      exact ⟨rfl, rfl, rfl⟩
    · have hcount := blockCount_terminate b t
      unfold blockCount at hcount hlt
      rw [show (b.terminate t).info c = default from Function.block_of_le (by omega),
        show b.info c = default from Function.block_of_le (by omega)]
      exact ⟨rfl, rfl, rfl⟩
  refine legible_of_step h (by simp) (fun v _ => .inl (valueInfo_terminate b t v)) (fun v _ => ?_)
    (fun c => ?_) (fun c v hv => .inl ?_) (fun c v hv => .inl ?_)
    (fun c call normal unwind ht' => ?_)
  · rw [valueInfo_terminate]
    exact h.values v
  · rw [(hinfo c).1]
    exact h.labels c
  · rwa [(hinfo c).2.1] at hv
  · rwa [(hinfo c).2.2] at hv
  · rcases terminator?_terminate ht' with heq | hold
    · rw [valueCount_terminate, valueInfo_terminate]
      exact .inr (ht call normal unwind heq.symm)
    · exact .inl hold

theorem legible_invoke (h : b.function.Legible) {callee : String} (hcallee : IsWord callee)
    (arguments : List Value) (result : Ty) (normal unwind : Block) :
    (b.invoke callee arguments result normal unwind).2.function.Legible := by
  have hfits : (⟨result, .call callee arguments, b.current⟩ : ValueInfo).Fits :=
    ⟨nofun, by rintro _ _ ⟨⟩; exact hcallee⟩
  rw [invoke_eq]
  refine legible_terminate (legible_newValue h hfits) ?_
  rintro call _ _ ⟨⟩
  refine ⟨by simp [valueCount, newValue], callee, arguments, ?_⟩
  rw [valueInfo_newValue, if_pos rfl]

end Builder

end Abacus.Flow

namespace Abacus.Lowering

open Abacus.Flow (Value Block Ty Inst Terminator Builder)

/-! ## Searches -/

namespace Drafting

variable {α β : Type}

/-- The work keeps the function legible, also when it fails. -/
def Legible (work : Drafting α) : Prop :=
  ∀ d, d.builder.function.Legible → (work.on d).2.builder.function.Legible

theorem legible_pure (a : α) : Legible (pure a) := fun _ hd => hd

theorem legible_get : Legible get := fun _ hd => hd

theorem legible_throw (e : LoweringError) : Legible (throw e : Drafting α) := fun _ hd => hd

theorem Legible.bind {work : Drafting α} {next : α → Drafting β} (h : Legible work)
    (hnext : ∀ a, Legible (next a)) : Legible (work >>= next) := by
  intro d hd
  have hd' := h d hd
  rw [on_bind]
  rcases hwork : work.on d with ⟨e | a, d₁⟩ <;> rw [hwork] at hd'
  · exact hd'
  · exact hnext a d₁ hd'

theorem legible_note (change : Variables → Variables) : Legible (note change) := fun _ hd => hd

theorem legible_newPhi (x : SymbolId) (b : Block) : Legible (newPhi x b) := by
  refine legible_get.bind fun d => ?_
  split
  · exact legible_throw _
  · exact Legible.bind (fun d hd => Builder.legible_phi hd _ _) fun _ =>
      (legible_note _).bind fun _ => legible_pure _

theorem legible_habit : Habit @Legible where
  done := legible_pure
  bind := Legible.bind
  look := legible_get
  fail _ _ := legible_throw _
  make := legible_newPhi
  wait _ := legible_note _
  keep _ _ _ := legible_note _
  give phi pred v _ hd := Builder.legible_addIncoming hd phi pred v

theorem legible_read (x : SymbolId) (b : Block) : Legible (read x b) := legible_habit.read x b

theorem legible_sealBlock (b : Block) : Legible (sealBlock b) :=
  legible_habit.sealBlock (legible_note _) (legible_note _)

end Drafting

/-! ## Plans -/

namespace Plan

/-- The function of the plan is legible. -/
def Legible (σ : Plan) : Prop := σ.builder.function.Legible

variable {σ σ₁ σ₂ σ' : Plan} {config : FaultConfig} {symbols symbols' : SymbolTable} {b : Bool}

theorem Legible.emit (h : σ.Legible) {inst : Inst} {ty : Ty} (hty : inst.ty? = some ty) :
    (σ.emit inst ty).Legible := by
  refine Builder.legible_push h ⟨fun ty' hty' => Option.some.inj (hty.symm.trans hty'), ?_⟩ ?_
  · rintro callee arguments rfl
    cases hty
  · cases inst with
    | phi => cases hty
    | _ => rfl

theorem Legible.emitCall (h : σ.Legible) {callee : String} (hcallee : IsWord callee)
    (arguments : List Value) : (σ.emit (.call callee arguments) .int).Legible :=
  Builder.legible_push h ⟨nofun, by rintro _ _ ⟨⟩; exact hcallee⟩ rfl

theorem Legible.newBlocks (h : σ.Legible) {labels : List String} (hlabels : ∀ l ∈ labels, IsWord l) :
    (σ.newBlocks labels).Legible := by
  induction labels generalizing σ with
  | nil => exact h
  | cons label labels ih =>
    have hnew : (σ.newBlock label).Legible :=
      Builder.legible_newBlock h (hlabels label List.mem_cons_self)
    exact ih hnew fun l hl => hlabels l (List.mem_cons_of_mem _ hl)

theorem Legible.enter (h : σ.Legible) (c : Block) (s : List Block) : (σ.enter c s).Legible := h

theorem Legible.terminate (h : σ.Legible) {t : Terminator} (ht : t.isInvoke = false) :
    (σ.terminate t).Legible := by
  refine Builder.legible_terminate h ?_
  rintro call normal unwind rfl
  cases ht

theorem Legible.write (h : σ.Legible) (x : SymbolId) (v : Value) : (σ.write x v).Legible := h

theorem Legible.declare (h : σ.Legible) (x : SymbolId) (ty : Ty) : (σ.declare x ty).Legible := h

theorem Legible.read (h : σ.Legible) {x : SymbolId} {c : Block} {v : Value} {d : Draft}
    (hread : (Drafting.read x c).on σ.record.draft = (.ok v, d)) : (σ.read x v d).Legible := by
  have hd := Drafting.legible_read x c σ.record.draft h
  rw [hread] at hd
  exact hd

theorem Legible.sealed (h : σ.Legible) {c : Block} {d : Draft}
    (hseal : (Drafting.sealBlock c).on σ.record.draft = (.ok (), d)) : (σ.sealed c d).Legible := by
  have hd := Drafting.legible_sealBlock c σ.record.draft h
  rw [hseal] at hd
  exact hd

theorem SealsBoth.legible {first second : Block} (h : SealsBoth σ first second σ')
    (hσ : σ.Legible) : σ'.Legible := by
  obtain ⟨h₁, h₂⟩ := h
  exact (hσ.sealed h₁).sealed h₂

/-! ### Expressions -/

theorem Coerced.legible {v v' : Value} {ty : Ty} (h : Coerced σ v ty v' σ') (hσ : σ.Legible) :
    σ'.Legible := by
  cases h with
  | same => exact hσ
  | toFloat => exact hσ.emit rfl
  | toInt => exact hσ.emit rfl

theorem Tested.legible {v v' : Value} (h : Tested σ v v' σ') (hσ : σ.Legible) : σ'.Legible := by
  cases h with
  | int _ h₁ => exact h₁ ▸ (hσ.emit rfl).emit rfl
  | float _ h₁ => exact h₁ ▸ (hσ.emit rfl).emit rfl

theorem Divided.legible {lhs rhs v : Value} (h : Divided config σ lhs rhs v σ') (hσ : σ.Legible) :
    σ'.Legible := by
  obtain ⟨rfl, rfl, fork, rfl⟩ := h
  have hlabels : ∀ l ∈ ["div.zero", "div.ok"], IsWord l := by
    decide
  have hforked := fork.legible ((((hσ.newBlocks hlabels).emit rfl).emit rfl).terminate rfl)
  exact ((((hforked.enter _ _).emit rfl).terminate rfl).enter _ _).emit rfl

theorem Computed.legible {op : InfixOp} {ty : Ty} {lhs rhs v : Value}
    (h : Computed config σ op ty lhs rhs b v σ') (hσ : σ.Legible) : σ'.Legible := by
  cases h with
  | floatCompare _ _ h₁ => exact h₁ ▸ (hσ.emit rfl).emit rfl
  | intCompare _ _ h₁ => exact h₁ ▸ (hσ.emit rfl).emit rfl
  | floatArith => exact hσ.emit rfl
  | divide _ _ hdivided => exact hdivided.legible hσ
  | intArith => exact hσ.emit rfl

theorem Combined.legible {op : InfixOp} {lhs rhs v : Value} (h : Combined config σ op lhs rhs b v σ')
    (hσ : σ.Legible) : σ'.Legible := by
  obtain ⟨-, hleft, hright, hresult⟩ := h
  exact hresult.legible (hright.legible (hleft.legible hσ))

theorem Negated.legible {v v' : Value} (h : Negated σ v v' σ') (hσ : σ.Legible) : σ'.Legible := by
  cases h with
  | float _ h₁ => exact h₁ ▸ (hσ.emit rfl).emit rfl
  | int _ h₁ => exact h₁ ▸ (hσ.emit rfl).emit rfl

theorem Landed.legible {sites : InvokeSites} {s : List Block} {pad selector : Value}
    (h : Landed config σ sites s pad selector σ') (hσ : σ.Legible) : σ'.Legible := by
  obtain ⟨rfl, rfl, rfl, rfl, fork⟩ := h
  exact fork.legible ((((((hσ.enter _ _).emit rfl).emit rfl).emit rfl).emit rfl).terminate rfl)

theorem Caught.legible {sites : InvokeSites} {s : List Block} {pad : Value}
    (h : Caught σ sites s pad σ') (hσ : σ.Legible) : σ'.Legible := by
  obtain ⟨rfl, rfl, rfl, rfl⟩ := h
  exact (((((hσ.enter _ _).emit rfl).emit rfl).emit rfl).emit rfl).terminate rfl

theorem Refused.legible {sites : InvokeSites} {s : List Block} {pad selector : Value}
    (h : Refused σ sites s pad selector σ') (hσ : σ.Legible) : σ'.Legible := by
  obtain ⟨rfl, rfl, fork, rfl⟩ := h
  have hforked := fork.legible ((((hσ.enter _ _).emit rfl).emit rfl).terminate rfl)
  exact ((((hforked.enter _ _).emit rfl).terminate rfl).enter _ _).terminate rfl

theorem Invoked.legible {callee : String} {arguments : List Value} {v : Value}
    (h : Invoked config σ callee arguments v σ') (hcallee : IsWord callee) (hσ : σ.Legible) :
    σ'.Legible := by
  obtain ⟨fork, landed, caught, refused⟩ := h
  have hlabels : ∀ l ∈ siteLabels, IsWord l := by
    unfold siteLabels FaultState.label
    decide
  have hcall := Builder.legible_invoke (hσ.newBlocks hlabels) hcallee arguments .int (σ.block 0)
    (σ.block 1)
  exact (refused.legible (caught.legible (landed.legible (fork.legible hcall)))).enter _ _

theorem Called.legible {name : String} {arguments : List Value} {handled : Bool} {v : Value}
    (h : Called config σ name arguments handled v σ') (hname : IsWord name) (hσ : σ.Legible) :
    σ'.Legible := by
  cases h with
  | plain => exact hσ.emitCall hname arguments
  | handled h => exact h.legible hname hσ

/-- The functions called in a part of an expression have names. -/
def ValuePart.CallsNames : ValuePart → Prop
  | .expr t => t.CallsOnly IsName
  | .args ts => ∀ t ∈ ts, t.CallsOnly IsName

theorem Values.legible {part : ValuePart} {vs : List Value}
    (h : Values config symbols part σ b vs σ') (hpart : part.CallsNames) (hσ : σ.Legible) :
    σ'.Legible := by
  induction h with
  | integer | floating => exact hσ.emit rfl
  | ident _ read => exact hσ.read read
  | infixOp _ _ hcombined ihleft ihright =>
    have hchildren := Tree.CallsOnly.children hpart
    exact hcombined.legible (ihright (hchildren _ (by simp [Shape.children]))
      (ihleft (hchildren _ (by simp [Shape.children])) hσ))
  | negate _ hnegated ih =>
    exact hnegated.legible (ih (Tree.CallsOnly.children hpart _ (by simp [Shape.children])) hσ)
  | pi => exact hσ.emit rfl
  | call _ _ _ hcalled ih =>
    have harguments := Tree.CallsOnly.children hpart _ (List.mem_singleton_self _)
    exact hcalled.legible (.ofName (Tree.CallsOnly.callee hpart)) (ih harguments.items hσ)
  | nil => exact hσ
  | cons _ hcoerced _ ihfirst ihrest =>
    exact ihrest (fun t ht => hpart t (List.mem_cons_of_mem _ ht))
      (hcoerced.legible (ihfirst (hpart _ List.mem_cons_self) hσ))

/-! ### Statements -/

theorem Returned.legible {v : Value} (h : Returned σ v σ') (hσ : σ.Legible) : σ'.Legible := by
  obtain ⟨rfl, rfl, hsealed⟩ := h
  have hlabels : ∀ l ∈ ["after_return"], IsWord l := by
    decide
  have hdead : ((σ.terminate (.ret v)).newBlock "after_return").Legible :=
    (hσ.terminate rfl).newBlocks hlabels
  exact (hdead.enter _ _).sealed hsealed

theorem Split.legible {test : Value} (h : Split σ test σ') (hσ : σ.Legible) : σ'.Legible := by
  obtain ⟨fork⟩ := h
  have hlabels : ∀ l ∈ ["if.then", "if.else", "if.join"], IsWord l := by
    decide
  exact (fork.legible ((hσ.newBlocks hlabels).terminate rfl)).enter _ _

theorem Legible.switch (h : σ₁.Legible) : (switch σ σ₁).Legible := (h.terminate rfl).enter _ _

theorem Joined.legible (h : Joined σ σ₁ σ') (hσ : σ₁.Legible) : σ'.Legible := by
  obtain ⟨hsealed⟩ := h
  exact ((hσ.terminate rfl).sealed hsealed).enter _ _

theorem Legible.countFrom (h : σ.Legible) (x : SymbolId) : (countFrom σ x).Legible :=
  ((h.declare x .int).emit rfl).write x _

theorem LoopHead.legible {x : SymbolId} {limit : Value} (h : LoopHead σ x limit σ')
    (hσ : σ.Legible) : σ'.Legible := by
  obtain ⟨rfl, hread, rfl, hsealed⟩ := h
  have hlabels : ∀ l ∈ loopLabels, IsWord l := by
    unfold loopLabels
    decide
  have henter := ((hσ.newBlocks hlabels).terminate (t := .jump (σ.block 0)) rfl).enter (σ.block 0)
    (σ.spine σ.current)
  exact ((((henter.read hread).emit rfl).terminate rfl).sealed hsealed).enter _ _

theorem LoopTail.legible {x : SymbolId} (h : LoopTail σ x σ₁ σ') (hσ : σ₁.Legible) :
    σ'.Legible := by
  obtain ⟨hend, rfl, hread, rfl, rfl, rfl, hheader, hexit⟩ := h
  have henter := ((hσ.terminate rfl).sealed hend).enter (σ.block 2) (σ₁.spine σ₁.current)
  exact (((((((henter.read hread).emit rfl).emit rfl).terminate rfl).write x _).sealed
    hheader).sealed hexit).enter _ _

/-- The functions called in a part of a body have names. -/
def StatementPart.CallsNames : StatementPart → Prop
  | .one t => t.CallsOnly IsName
  | .all ts => ∀ t ∈ ts, t.CallsOnly IsName

theorem callsNames_elseItems {elseBody : Option Tree}
    (h : ∀ t ∈ elseBody.toList, t.CallsOnly IsName) : ∀ t ∈ elseItems elseBody, t.CallsOnly IsName := by
  cases elseBody with
  | none => exact fun t ht => absurd ht List.not_mem_nil
  | some body => exact (h body (List.mem_singleton_self _)).items

theorem Statements.legible {part : StatementPart} {r : Option Value}
    (h : Statements config part symbols σ b r symbols' σ') (hpart : part.CallsNames)
    (hσ : σ.Legible) : σ'.Legible := by
  induction h with
  | letVar hvalue =>
    have hchildren := Tree.CallsOnly.children hpart
    exact ((hvalue.legible (hchildren _ (List.mem_singleton_self _)) hσ).declare _ _).write _ _
  | setVar hvalue _ _ hcoerced =>
    have hchildren := Tree.CallsOnly.children hpart
    exact (hcoerced.legible (hvalue.legible (hchildren _ (List.mem_singleton_self _)) hσ)).write _ _
  | giveBack hvalue hcoerced hreturned =>
    have hchildren := Tree.CallsOnly.children hpart
    exact hreturned.legible
      (hcoerced.legible (hvalue.legible (hchildren _ (List.mem_singleton_self _)) hσ))
  | ifElse hcondition htested hsplit _ _ _ _ hjoined ihthen ihelse =>
    have hchildren := Tree.CallsOnly.children hpart
    have hthen := hchildren _ (List.mem_cons_of_mem _ List.mem_cons_self)
    have helse := callsNames_elseItems fun t ht =>
      hchildren t (List.mem_cons_of_mem _ (List.mem_cons_of_mem _ ht))
    have hfirst := hsplit.legible
      (htested.legible (hcondition.legible (hchildren _ List.mem_cons_self) hσ))
    exact hjoined.legible (ihelse helse (Legible.switch (ihthen hthen.items hfirst)))
  | forLoop hbound hcoerced _ hhead _ _ htail _ ih =>
    have hchildren := Tree.CallsOnly.children hpart
    have hbody := hchildren _ (List.mem_cons_of_mem _ List.mem_cons_self)
    have hlimit := hcoerced.legible (hbound.legible (hchildren _ List.mem_cons_self) hσ)
    exact htail.legible (ih hbody.items (hhead.legible (hlimit.countFrom _)))
  | expression hvalue => exact hvalue.legible hpart hσ
  | nil => exact hσ
  | cons _ _ ihfirst ihrest =>
    exact ihrest (fun t ht => hpart t (List.mem_cons_of_mem _ ht))
      (ihfirst (hpart _ List.mem_cons_self) hσ)

/-! ### Functions -/

theorem Opens.legible {name : String} {arity : Nat} (h : Opens name arity σ) : σ.Legible := by
  obtain ⟨hsealed⟩ := h
  have hstart : (start name (List.replicate arity .int) .int).Legible :=
    Builder.legible_start name arity
  exact hstart.sealed hsealed

theorem Parameters.legible {names : List String} {i : Nat}
    (h : Parameters names i symbols σ symbols' σ') (hσ : σ.Legible) : σ'.Legible := by
  induction h with
  | nil => exact hσ
  | cons _ _ ih => exact ih ((hσ.declare _ _).write _ _)

theorem Resulting.legible {r r' : Option Value} (h : Resulting σ r r' σ') (hσ : σ.Legible) :
    σ'.Legible := by
  cases h with
  | none => exact hσ
  | some hcoerced => exact hcoerced.legible hσ

theorem Ended.legible {r : Option Value} (h : Ended σ r σ') (hσ : σ.Legible) : σ'.Legible := by
  cases h with
  | value v => exact hσ.terminate rfl
  | zero => exact (hσ.emit rfl).terminate rfl

/-- The functions called in a routine have names. -/
def Routine.CallsNames : Routine → Prop
  | .definition _ _ body => body.CallsOnly IsName
  | .statements _ items => ∀ t ∈ items, t.CallsOnly IsName

/-- A function that is lowered is legible if the functions called have names. -/
theorem Made.legible {routine : Routine} (h : Made config symbols routine b symbols' σ')
    (hroutine : routine.CallsNames) : σ'.Legible := by
  obtain ⟨hbody, hended⟩ := h
  refine hended.legible ?_
  cases hbody with
  | definition hopens hparams hitems _ =>
    exact hitems.legible (Tree.CallsOnly.items hroutine) (hparams.legible hopens.legible)
  | statements hopens hitems _ hresult =>
    exact hresult.legible (hitems.legible hroutine hopens.legible)

end Plan

/-! ## Units -/

open Plan

/-- The function is legible, and every block has an end. -/
def Readable (f : Flow.Function) : Prop :=
  f.Legible ∧ ∀ b : Block, b.index < f.blocks.size → (f.block b).terminator?.isSome

theorem Plan.Made.readable {fault : FaultConfig} {symbols symbols' : SymbolTable} {routine : Routine}
    {b : Bool} {σ : Plan} (h : Made fault symbols routine b symbols' σ)
    (hroutine : routine.CallsNames) : Readable σ.builder.function :=
  ⟨h.legible hroutine, fun c hc => (h.closed.2 c hc).2⟩

/-- What holds of the items that have been dealt with: the functions are readable, and in the
statements that are left the functions called have names. -/
structure Progress.Readable (progress : Progress) : Prop where
  functions : ∀ f ∈ progress.functions, Lowering.Readable f
  statements : ∀ t ∈ progress.statements, t.CallsOnly IsName

theorem lowerItem_readable {options : Options} {progress progress' : Progress} {item : Tree}
    (h : lowerItem options progress item = .ok progress') (hitem : item.CallsOnly IsName)
    (hprogress : progress.Readable) : progress'.Readable := by
  unfold lowerItem at h
  split at h
  · obtain ⟨⟨f, entry, symbols'⟩, hlower, h⟩ := except_bind_ok h
    obtain ⟨id, opened, b, closed, σ, -, hmade, rfl, -⟩ := lowerFunction_made hlower
    cases h
    refine ⟨fun g hg => ?_, hprogress.statements⟩
    rcases Array.mem_push.1 hg with hg | rfl
    · exact hprogress.functions g hg
    · exact hmade.readable (hitem.children _ (List.mem_singleton_self _))
  · cases h
    refine ⟨hprogress.functions, fun t ht => ?_⟩
    rcases Array.mem_push.1 ht with ht | rfl
    · exact hprogress.statements t ht
    · exact hitem

theorem foldlM_readable {options : Options} {items : List Tree} {progress progress' : Progress}
    (h : items.foldlM (lowerItem options) progress = .ok progress')
    (hitems : ∀ t ∈ items, t.CallsOnly IsName) (hprogress : progress.Readable) :
    progress'.Readable := by
  induction items generalizing progress with
  | nil =>
    cases h
    exact hprogress
  | cons item items ih =>
    rw [List.foldlM_cons] at h
    obtain ⟨mid, hfirst, hrest⟩ := except_bind_ok h
    exact ih hrest (fun t ht => hitems t (List.mem_cons_of_mem _ ht))
      (lowerItem_readable hfirst (hitems item List.mem_cons_self) hprogress)

/-- The functions of a unit are readable if the functions called in it have names. -/
theorem lowerUnit_readable {options : Options} {exports : List Export} {unitName : String}
    {tree : Tree} {emission : Emission} (htree : tree.CallsOnly IsName)
    (h : lowerUnit options exports unitName (some tree) = .ok emission) :
    ∀ f ∈ emission.module.functions, Readable f := by
  obtain ⟨symbols, -, h⟩ := except_bind_ok h
  obtain ⟨progress, hitems, h⟩ := except_bind_ok h
  have hprogress : progress.Readable :=
    foldlM_readable hitems htree.items ⟨by simp, by simp⟩
  split at h
  · cases h
    intro f hf
    exact hprogress.functions f (by simpa using hf)
  · obtain ⟨g, hlower, h⟩ := except_bind_ok h
    obtain ⟨id, opened, b, closed, σ, -, hmade, rfl⟩ := lowerStatements_made hlower
    cases h
    intro f hf
    rcases Array.mem_push.1 (Array.mem_toList_iff.1 hf) with hf | rfl
    · exact hprogress.functions f hf
    · exact hmade.readable fun t ht => hprogress.statements t (Array.mem_toList_iff.1 ht)

end Abacus.Lowering
