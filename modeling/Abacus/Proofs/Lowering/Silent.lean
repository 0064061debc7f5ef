import Abacus.Proofs.Variables.Habits
import Abacus.Proofs.Lowering.Control

/-!
# What lowering leaves alone

Most parts of lowering neither read nor write a variable, declare none, call no function, and neither
raise a fault nor pass one on. That can be seen from the steps they are made of, whatever the plan they
start from (`Plan.Silent`).

* `Drafting.spares_sealBlock`, `Drafting.spares_read` — searches leave types and ends of blocks
  alone, also when they fail;
* `Plan.Silent` — what has been done has no reads, no writes and no declarations;
* `Coerced.silent`, `Tested.silent` and others — the parts of lowering;
* `Divided.silent`, `Invoked.silent` — parts that are silent but for the one thing they are for;
* `LoopHead.silentBut`, `LoopTail.silentBut` — a loop reads and writes its variable in two blocks.
-/

namespace Abacus.Lowering

open Abacus.Flow (Value Block Ty Inst Terminator Builder)

/-! ## Searches -/

/-- Types of variables, ends of blocks and the current block are the same, and there are no new
calls. -/
structure Draft.Untouched (d d' : Draft) : Prop where
  types : d'.known.types = d.known.types
  current : d'.builder.current = d.builder.current
  terminator : ∀ b, (d'.builder.info b).terminator? = (d.builder.info b).terminator?
  calls : ∀ {v callee arguments}, (d'.builder.valueInfo v).inst = .call callee arguments →
    (d.builder.valueInfo v).inst = .call callee arguments

theorem Draft.Untouched.trans {d d₁ d₂ : Draft} (h₁ : d.Untouched d₁) (h₂ : d₁.Untouched d₂) :
    d.Untouched d₂ :=
  ⟨h₂.types.trans h₁.types, h₂.current.trans h₁.current,
    fun b => (h₂.terminator b).trans (h₁.terminator b), fun h => h₁.calls (h₂.calls h)⟩

namespace Drafting

variable {α β : Type}

/-- The work leaves types of variables and ends of blocks alone. -/
def Spares (work : Drafting α) : Prop := ∀ d : Draft, d.Untouched (work.on d).2

theorem spares_pure (a : α) : Spares (pure a) := fun _ => ⟨rfl, rfl, fun _ => rfl, id⟩

theorem spares_get : Spares get := fun _ => ⟨rfl, rfl, fun _ => rfl, id⟩

theorem spares_throw (e : LoweringError) : Spares (throw e : Drafting α) :=
  fun _ => ⟨rfl, rfl, fun _ => rfl, id⟩

theorem Spares.bind {work : Drafting α} {next : α → Drafting β} (h : Spares work)
    (hnext : ∀ a, Spares (next a)) : Spares (work >>= next) := by
  intro d
  have hd := h d
  rw [on_bind]
  rcases hwork : work.on d with ⟨e | a, d₁⟩ <;> rw [hwork] at hd
  · exact hd
  · exact hd.trans (hnext a d₁)

theorem spares_note {change : Variables → Variables} (h : ∀ known, (change known).types = known.types) :
    Spares (note change) := fun d => ⟨h d.known, rfl, fun _ => rfl, id⟩

theorem spares_newPhi (x : SymbolId) (b : Block) : Spares (newPhi x b) := by
  refine spares_get.bind fun d => ?_
  split
  · exact spares_throw _
  · refine Spares.bind (fun d' => ⟨rfl, rfl, fun c => ?_, fun {v _ _} hv => ?_⟩) fun phi =>
      Spares.bind (spares_note fun _ => rfl) fun _ => spares_pure _
    · show ((d'.builder.phi b _).2.info c).terminator? = _
      rw [Builder.info_phi]
      split <;> rfl
    · change ((d'.builder.phi b _).2.valueInfo v).inst = _ at hv
      rw [Builder.valueInfo_phi] at hv
      split at hv
      · cases hv
      · exact hv

theorem spares_addOperand (phi : Value) (pred : Block) (v : Value) :
    Spares (rebuild fun b => b.addIncoming phi pred v) := by
  refine fun d => ⟨rfl, rfl, fun _ => rfl, fun {u _ _} hu => ?_⟩
  change ((d.builder.addIncoming phi pred v).valueInfo u).inst = _ at hu
  rw [Builder.valueInfo_addIncoming] at hu
  split at hu
  · unfold Builder.addOperand at hu
    split at hu
    · cases hu
    · exact hu
  · exact hu

theorem spares_habit : Habit @Spares where
  done := spares_pure
  bind := Spares.bind
  look := spares_get
  fail _ _ := spares_throw _
  make := spares_newPhi
  wait _ := spares_note fun _ => rfl
  keep _ _ _ := spares_note fun known => (Variables.frame_writeAll _ _ _ known).2.2.1
  give := spares_addOperand

theorem spares_read (x : SymbolId) (b : Block) : Spares (read x b) := spares_habit.read x b

theorem spares_sealBlock (b : Block) : Spares (sealBlock b) :=
  spares_habit.sealBlock (spares_note fun _ => rfl) (spares_note fun _ => rfl)

end Drafting

/-! ## Steps -/

namespace Plan

/-- Between the plans no variable is read, written or declared, no function is called, and no block has
got an end that raises a fault or passes one on. -/
structure Silent (σ σ' : Plan) : Prop where
  type : ∀ x, σ'.known.type? x = σ.known.type? x
  script : ∀ b, ∃ later, σ'.record.script b = σ.record.script b ++ later ∧
    ∀ e ∈ later, ∃ v, e = .inst v
  raised : ∀ {q v}, σ'.terminator? q = some (.raise v) → σ.terminator? q = some (.raise v)
  resumed : ∀ {q v}, σ'.terminator? q = some (.resume v) → σ.terminator? q = some (.resume v)
  calls : ∀ {v callee arguments}, (σ'.builder.valueInfo v).inst = .call callee arguments →
    (σ.builder.valueInfo v).inst = .call callee arguments

section

variable {σ σ₁ σ₂ : Plan} {b : Bool}

theorem silent_rfl (σ : Plan) : Silent σ σ where
  type _ := rfl
  script _ := ⟨[], (List.append_nil _).symm, by simp⟩
  raised := id
  resumed := id
  calls := id

theorem Silent.trans (h₁ : Silent σ σ₁) (h₂ : Silent σ₁ σ₂) : Silent σ σ₂ where
  type x := (h₂.type x).trans (h₁.type x)
  script b := by
    obtain ⟨later₁, he₁, hlater₁⟩ := h₁.script b
    obtain ⟨later₂, he₂, hlater₂⟩ := h₂.script b
    refine ⟨later₁ ++ later₂, by rw [he₂, he₁, List.append_assoc], fun e he => ?_⟩
    rcases List.mem_append.1 he with he | he
    · exact hlater₁ e he
    · exact hlater₂ e he
  raised h := h₁.raised (h₂.raised h)
  resumed h := h₁.resumed (h₂.resumed h)
  calls h := h₁.calls (h₂.calls h)

theorem script_happen (script : Block → List Event) (c : Block) (v : Value) (b : Block) :
    ∃ later, Recording.happen script c (.inst v) b = script b ++ later ∧
      ∀ e ∈ later, ∃ v, e = .inst v := by
  by_cases hb : b = c
  · exact ⟨[.inst v], by rw [hb, Recording.happen_self], by simp⟩
  · exact ⟨[], by rw [Recording.happen_of_ne _ _ hb, List.append_nil], by simp⟩

theorem silent_emit {inst : Inst} {ty : Ty}
    (hinst : ∀ callee arguments, inst ≠ .call callee arguments) :
    Silent σ (σ.emit inst ty) where
  type _ := rfl
  script _ := script_happen ..
  raised hq := (info_emit σ inst ty _).2.1 ▸ hq
  resumed hq := (info_emit σ inst ty _).2.1 ▸ hq
  calls {v _ _} hv := by
    rw [valueInfo_emit] at hv
    split at hv
    · exact absurd hv (hinst _ _)
    · exact hv

theorem silent_newBlock (σ : Plan) (label : String) : Silent σ (σ.newBlock label) where
  type _ := rfl
  script _ := ⟨[], (List.append_nil _).symm, by simp⟩
  raised hq := (info_newBlock σ label _).2.1 ▸ hq
  resumed hq := (info_newBlock σ label _).2.1 ▸ hq
  calls := id

theorem silent_newBlocks (labels : List String) (σ : Plan) :
    Silent σ (σ.newBlocks labels) := by
  induction labels generalizing σ with
  | nil => exact silent_rfl σ
  | cons label labels ih => exact (silent_newBlock σ label).trans (ih _)

theorem silent_enter (σ : Plan) (c : Block) (s : List Block) : Silent σ (σ.enter c s) where
  type _ := rfl
  script _ := ⟨[], (List.append_nil _).symm, by simp⟩
  raised := id
  resumed := id
  calls := id

/-- The end of a block is the one that it is given, or the one that it had. -/
theorem terminator?_of_terminate {t t' : Terminator} {q : Block}
    (hq : (σ.terminate t).terminator? q = some t') :
    q = σ.current ∧ t' = t ∨ σ.terminator? q = some t' := by
  by_cases hlt : q.index < σ.builder.blockCount
  · have hinfo : (σ.terminate t).builder.info q = _ := Builder.info_terminate σ.builder t q hlt
    unfold terminator? at hq
    rw [hinfo] at hq
    dsimp only at hq
    split at hq
    · next hcurrent =>
      cases hq
      exact .inl ⟨hcurrent, rfl⟩
    · exact .inr hq
  · have hle : (σ.terminate t).builder.blockCount ≤ q.index := by
      rw [show (σ.terminate t).builder.blockCount = _ from Builder.blockCount_terminate ..]
      exact Nat.not_lt.1 hlt
    unfold terminator? at hq
    rw [show (σ.terminate t).builder.info q = default from Flow.Function.block_of_le hle] at hq
    cases hq

theorem silent_terminate (σ : Plan) {t : Terminator} (ht : ∀ v, t ≠ .raise v ∧ t ≠ .resume v) :
    Silent σ (σ.terminate t) where
  type _ := rfl
  script _ := ⟨[], (List.append_nil _).symm, by simp⟩
  raised hq := (terminator?_of_terminate hq).resolve_left fun h => (ht _).1 h.2.symm
  resumed hq := (terminator?_of_terminate hq).resolve_left fun h => (ht _).2 h.2.symm
  calls {v _ _} hv := by
    rwa [show (σ.terminate t).builder.valueInfo v = _ from Builder.valueInfo_terminate ..] at hv

theorem silent_sealed {c : Block} {d : Draft}
    (hseal : (Drafting.sealBlock c).on σ.record.draft = (.ok (), d)) :
    Silent σ (σ.sealed c d) := by
  have h := Drafting.spares_sealBlock c σ.record.draft
  rw [hseal] at h
  constructor
  case type =>
    intro x
    show d.known.types[x]? = _
    rw [h.types]
    rfl
  case script => exact fun _ => ⟨[], (List.append_nil _).symm, by simp⟩
  case raised => exact fun {q v} hq => (h.terminator q).symm.trans hq
  case resumed => exact fun {q v} hq => (h.terminator q).symm.trans hq
  case calls => exact h.calls

/-! ## Parts of lowering -/

theorem SealsBoth.silent {first second : Block} (h : SealsBoth σ first second σ₁) :
    Silent σ σ₁ := by
  obtain ⟨h₁, h₂⟩ := h
  exact (silent_sealed h₁).trans (silent_sealed h₂)

theorem Coerced.silent {v v' : Value} {ty : Ty} (h : Coerced σ v ty v' σ₁) : Silent σ σ₁ := by
  cases h with
  | same => exact silent_rfl σ
  | toFloat => exact silent_emit (by simp)
  | toInt => exact silent_emit (by simp)

theorem Tested.silent {v v' : Value} (h : Tested σ v v' σ₁) : Silent σ σ₁ := by
  cases h with
  | int _ h₁ => exact h₁ ▸ (silent_emit (by simp)).trans (silent_emit (by simp))
  | float _ h₁ => exact h₁ ▸ (silent_emit (by simp)).trans (silent_emit (by simp))

/-- A division is silent but for the fault that it raises. -/
theorem Divided.silent {config : FaultConfig} {lhs rhs v : Value}
    (h : Divided config σ lhs rhs v σ₂) : ∃ σ₀ σ₁, Silent σ σ₀ ∧
      σ₁ = (σ₀.emit (.faultAlloc config.code config.typeId) .fault).terminate (.raise σ₀.next) ∧
      Silent σ₁ σ₂ ∧ σ₀.builder.valueCount < σ₂.builder.valueCount ∧
      (σ₂.builder.valueInfo σ₀.next).inst = .faultAlloc config.code config.typeId := by
  obtain @⟨σ₁, σ₂, σ₃, σ₄, rfl, rfl, fork, raise⟩ := h
  have htest : Silent σ σ₃ := ((((silent_newBlocks _ σ).trans (silent_emit (by simp))).trans
    (silent_emit (by simp))).trans (silent_terminate _ (by simp))).trans fork.silent
  have hcount : σ₄.builder.valueCount = σ₃.builder.valueCount + 1 := by
    rw [raise]
    exact (Builder.valueCount_terminate ..).trans (Builder.valueCount_push ..)
  refine ⟨_, _, htest.trans (silent_enter ..), raise,
    (silent_enter ..).trans (silent_emit (by simp)), ?_, ?_⟩
  · rw [show ((σ₄.enter (σ.block 1) (σ.spine σ.current)).emit (.intArith .div lhs rhs)
      .int).builder.valueCount = _ from Builder.valueCount_push ..]
    show σ₃.builder.valueCount < σ₄.builder.valueCount + 1
    omega
  · rw [valueInfo_emit, if_neg]
    · show (σ₄.builder.valueInfo _).inst = _
      rw [raise, show (Plan.terminate _ _).builder.valueInfo _ = _ from Builder.valueInfo_terminate ..,
        valueInfo_emit, if_pos rfl]
    · show σ₃.builder.valueCount ≠ σ₄.builder.valueCount
      omega

/-- An operator that makes no division of integers is silent. -/
theorem Computed.silent {config : FaultConfig} {op : InfixOp} {ty : Ty} {lhs rhs v : Value}
    (h : Computed config σ op ty lhs rhs b v σ₁) : Silent σ σ₁ ∧ b = false ∨
      Divided config σ lhs rhs v σ₁ ∧ b = true := by
  cases h with
  | floatCompare _ _ h₁ => exact .inl ⟨h₁ ▸ (silent_emit (by simp)).trans (silent_emit (by simp)), rfl⟩
  | intCompare _ _ h₁ => exact .inl ⟨h₁ ▸ (silent_emit (by simp)).trans (silent_emit (by simp)), rfl⟩
  | floatArith => exact .inl ⟨silent_emit (by simp), rfl⟩
  | divide _ _ h => exact .inr ⟨h, rfl⟩
  | intArith => exact .inl ⟨silent_emit (by simp), rfl⟩

/-- An operator declares no variables. -/
theorem Combined.type {config : FaultConfig} {op : InfixOp} {lhs rhs v : Value}
    (h : Combined config σ op lhs rhs b v σ₁) (x : SymbolId) :
    σ₁.known.type? x = σ.known.type? x := by
  obtain ⟨-, hleft, hright, hresult⟩ := h
  rw [← hleft.silent.type, ← hright.silent.type]
  rcases hresult.silent with ⟨hsilent, -⟩ | ⟨hdivided, -⟩
  · exact hsilent.type x
  · obtain ⟨σ₀, _, hbefore, rfl, hbehind, -⟩ := hdivided.silent
    rw [hbehind.type, ← hbefore.type]
    rfl

theorem Negated.silent {v v' : Value} (h : Negated σ v v' σ₁) : Silent σ σ₁ := by
  cases h with
  | float _ h₁ => exact h₁ ▸ (silent_emit (by simp)).trans (silent_emit (by simp))
  | int _ h₁ => exact h₁ ▸ (silent_emit (by simp)).trans (silent_emit (by simp))

theorem Landed.silent {config : FaultConfig} {sites : InvokeSites} {s : List Block}
    {pad selector : Value} (h : Landed config σ sites s pad selector σ₁) : Silent σ σ₁ := by
  obtain ⟨rfl, rfl, rfl, rfl, fork⟩ := h
  exact (((((silent_enter ..).trans (silent_emit (by simp))).trans (silent_emit (by simp))).trans
    (silent_emit (by simp))).trans (silent_emit (by simp))).trans
    ((silent_terminate _ (by simp)).trans fork.silent)

theorem Caught.silent {sites : InvokeSites} {s : List Block} {pad : Value}
    (h : Caught σ sites s pad σ₁) : Silent σ σ₁ := by
  obtain ⟨rfl, rfl, rfl, rfl⟩ := h
  exact (((((silent_enter ..).trans (silent_emit (by simp))).trans (silent_emit (by simp))).trans
    (silent_emit (by simp))).trans (silent_emit (by simp))).trans (silent_terminate _ (by simp))

/-- A call with a handler is silent but for the call itself and the end that passes a fault on. -/
theorem Invoked.silent {config : FaultConfig} {callee : String} {arguments : List Value} {v : Value}
    (h : Invoked config σ callee arguments v σ₂) : ∃ σ₁ pad, Silent
      ((σ.newBlocks siteLabels).invoke callee arguments .int (σ.block 0) (σ.block 1)) σ₁ ∧
      σ₁.current = σ.sitesOf.cleanup ∧ Silent (σ₁.terminate (.resume pad)) σ₂ := by
  obtain ⟨fork, landed, caught, rfl, rfl, turn, rfl⟩ := h
  refine ⟨_, _, ?_, rfl, silent_enter ..⟩
  exact ((fork.silent.trans landed.silent).trans caught.silent).trans
    (((((((silent_enter ..).trans (silent_emit (by simp))).trans (silent_emit (by simp))).trans
      (silent_terminate _ (by simp))).trans turn.silent).trans (silent_enter ..)).trans
      (((silent_emit (by simp)).trans (silent_terminate _ (by simp))).trans (silent_enter ..)))

/-- A call declares no variables. -/
theorem Called.type {config : FaultConfig} {name : String} {arguments : List Value}
    {handled : Bool} {v : Value} (h : Called config σ name arguments handled v σ₂) (x : SymbolId) :
    σ₂.known.type? x = σ.known.type? x := by
  cases h with
  | plain => rfl
  | handled h =>
    obtain ⟨σ₁, pad, hbefore, -, hbehind⟩ := h.silent
    rw [hbehind.type, show (σ₁.terminate (.resume pad)).known.type? x = σ₁.known.type? x from rfl,
      hbefore.type]
    exact (silent_newBlocks siteLabels σ).type x

theorem Returned.silent {v : Value} (h : Returned σ v σ₁) : Silent σ σ₁ := by
  obtain ⟨rfl, rfl, hsealed⟩ := h
  exact (((silent_terminate _ (by simp)).trans (silent_newBlock ..)).trans (silent_enter ..)).trans
    (silent_sealed hsealed)

theorem Split.silent {test : Value} (h : Split σ test σ₁) : Silent σ σ₁ := by
  obtain ⟨fork⟩ := h
  exact (((silent_newBlocks _ σ).trans (silent_terminate _ (by simp))).trans fork.silent).trans
    (silent_enter ..)

theorem silent_switch (σ σ₁ : Plan) : Silent σ₁ (switch σ σ₁) :=
  (silent_terminate _ (by simp)).trans (silent_enter ..)

theorem Joined.silent (h : Joined σ σ₁ σ₂) : Silent σ₁ σ₂ := by
  obtain ⟨hsealed⟩ := h
  exact ((silent_terminate _ (by simp)).trans (silent_sealed hsealed)).trans (silent_enter ..)

/-! ## Loops -/

/-- The same as `Silent` for all blocks but one, in which variables may be read and written. -/
structure SilentBut (c : Block) (σ σ' : Plan) : Prop where
  type : ∀ x, σ'.known.type? x = σ.known.type? x
  script : ∀ b, b ≠ c → ∃ later, σ'.record.script b = σ.record.script b ++ later ∧
    ∀ e ∈ later, ∃ v, e = .inst v
  raised : ∀ {q v}, σ'.terminator? q = some (.raise v) → σ.terminator? q = some (.raise v)
  resumed : ∀ {q v}, σ'.terminator? q = some (.resume v) → σ.terminator? q = some (.resume v)
  calls : ∀ {v callee arguments}, (σ'.builder.valueInfo v).inst = .call callee arguments →
    (σ.builder.valueInfo v).inst = .call callee arguments

theorem Silent.but (h : Silent σ σ₁) (c : Block) : SilentBut c σ σ₁ :=
  ⟨h.type, fun b _ => h.script b, h.raised, h.resumed, h.calls⟩

theorem SilentBut.trans {c : Block} (h₁ : SilentBut c σ σ₁) (h₂ : SilentBut c σ₁ σ₂) :
    SilentBut c σ σ₂ where
  type x := (h₂.type x).trans (h₁.type x)
  script b hb := by
    obtain ⟨later₁, he₁, hlater₁⟩ := h₁.script b hb
    obtain ⟨later₂, he₂, hlater₂⟩ := h₂.script b hb
    refine ⟨later₁ ++ later₂, by rw [he₂, he₁, List.append_assoc], fun e he => ?_⟩
    rcases List.mem_append.1 he with he | he
    · exact hlater₁ e he
    · exact hlater₂ e he
  raised hq := h₁.raised (h₂.raised hq)
  resumed hq := h₁.resumed (h₂.resumed hq)
  calls hv := h₁.calls (h₂.calls hv)

theorem silentBut_read {x : SymbolId} {v : Value} {d : Draft}
    (hread : (Drafting.read x σ.current).on σ.record.draft = (.ok v, d)) :
    SilentBut σ.current σ (σ.read x v d) ∧ (σ.read x v d).current = σ.current := by
  have h := Drafting.spares_read x σ.current σ.record.draft
  rw [hread] at h
  refine ⟨?_, h.current⟩
  constructor
  case type =>
    intro y
    show d.known.types[y]? = _
    rw [h.types]
    rfl
  case script =>
    exact fun b hb => ⟨[], by rw [List.append_nil]; exact Recording.happen_of_ne _ _ hb, by simp⟩
  case raised => exact fun {q w} hq => (h.terminator q).symm.trans hq
  case resumed => exact fun {q w} hq => (h.terminator q).symm.trans hq
  case calls => exact h.calls

theorem silentBut_write (x : SymbolId) (v : Value) : SilentBut σ.current σ (σ.write x v) where
  type _ := rfl
  script b hb :=
    ⟨[], by rw [List.append_nil]; exact Recording.happen_of_ne _ _ hb, by simp⟩
  raised := id
  resumed := id
  calls := id

/-- The head of a loop reads the variable in the header. -/
theorem LoopHead.silentBut {x : SymbolId} {limit : Value} (h : LoopHead σ x limit σ₁) :
    SilentBut (σ.block 0) σ σ₁ := by
  obtain @⟨σ₁, σ₂, v, d, d', enter, hread, compare, hsealed⟩ := h
  have hcurrent : σ₁.current = σ.block 0 := by
    rw [enter]
    rfl
  have hfirst : Silent σ σ₁ := by
    rw [enter]
    exact ((silent_newBlocks _ σ).trans (silent_terminate _ (by simp))).trans (silent_enter ..)
  have hlast : Silent (σ₁.read x v d) _ :=
    ((((compare ▸ silent_emit (by simp)).trans (silent_terminate σ₂ (by simp))).trans
      (silent_sealed hsealed))).trans (silent_enter _ (σ.block 1) (σ.block 0 :: σ.spine σ.current))
  exact ((hfirst.but _).trans (hcurrent ▸ (silentBut_read hread).1)).trans (hlast.but _)

/-- The tail of a loop reads and writes the variable in the block behind the body. -/
theorem LoopTail.silentBut {x : SymbolId} (h : LoopTail σ x σ₁ σ₂) :
    SilentBut (σ.block 2) σ₁ σ₂ := by
  obtain @⟨σ₂, σ₃, σ₄, σ₅, v, d, d₂, d₃, d₄, sealEnd, enter, hread, hone, hnext, back, sealHeader,
    sealExit⟩ := h
  have hcurrent : σ₂.current = σ.block 2 := by
    rw [enter]
    rfl
  have hfirst : Silent σ₁ σ₂ := by
    rw [enter]
    exact ((silent_terminate σ₁ (by simp)).trans (silent_sealed sealEnd)).trans (silent_enter ..)
  obtain ⟨hmid, hcurrent'⟩ := silentBut_read hread
  have hcount : Silent (σ₂.read x v d₂) (σ₄.terminate (.jump (σ.block 0))) :=
    ((hone ▸ silent_emit (by simp)).trans (hnext ▸ silent_emit (by simp))).trans
      (silent_terminate _ (by simp))
  have hcurrent₄ : (σ₄.terminate (.jump (σ.block 0))).current = σ.block 2 := by
    rw [show (σ₄.terminate (.jump (σ.block 0))).current = σ₄.current from
      Builder.current_terminate .., hnext, hone]
    exact hcurrent'.trans hcurrent
  have hwrite : SilentBut (σ.block 2) _ σ₅ :=
    back ▸ hcurrent₄ ▸ silentBut_write (σ := σ₄.terminate (.jump (σ.block 0))) x σ₃.next
  have hlast : Silent σ₅ _ := ((silent_sealed sealHeader).trans (silent_sealed sealExit)).trans
    (silent_enter _ (σ.block 3) (σ.block 0 :: σ.spine σ.current))
  exact (hfirst.but _).trans ((hcurrent ▸ hmid).trans ((hcount.but _).trans
    (hwrite.trans (hlast.but _))))

end

end Plan

end Abacus.Lowering
