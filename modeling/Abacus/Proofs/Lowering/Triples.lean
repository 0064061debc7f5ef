import Abacus.Lowering.State
import Abacus.Lowering.Fault
import Abacus.Proofs.Lowering.Places

/-!
# What lowering does to plans

Every step of lowering that succeeds is a step of a plan. The rules for sequences of steps follow
the structure of the code.

* `Drafting.Leads` — work on a draft leads from a plan to another one;
* `Lower.Leads` — the same for the lowering of a part of a body.
-/

namespace Abacus.Lowering

open Abacus.Flow (Value Block Ty Inst Terminator Builder)

/-! ## Work on a draft -/

namespace Drafting

variable {α β : Type} {work : Drafting α} {next : α → Drafting β} {σ : Plan}
  {post mid : α → Plan → Prop} {post' : β → Plan → Prop}

/-- If the work succeeds, it leads from the plan to another one. -/
def Leads (work : Drafting α) (σ : Plan) (post : α → Plan → Prop) : Prop :=
  ∀ a d, work.on σ.record.draft = (.ok a, d) → ∃ σ' : Plan, σ'.record.draft = d ∧ post a σ'

theorem Leads.bind (h : Leads work σ mid) (hnext : ∀ a σ₁, mid a σ₁ → Leads (next a) σ₁ post') :
    Leads (work >>= next) σ post' := by
  intro b d hrun
  obtain ⟨a, d₁, hwork, hrest⟩ := on_bind_ok hrun
  obtain ⟨σ₁, rfl, hmid⟩ := h a d₁ hwork
  exact hnext a σ₁ hmid b d hrest

theorem Leads.mono (h : Leads work σ mid) (himp : ∀ a σ', mid a σ' → post a σ') :
    Leads work σ post := by
  intro a d hrun
  obtain ⟨σ', hdraft, hmid⟩ := h a d hrun
  exact ⟨σ', hdraft, himp a σ' hmid⟩

theorem leads_pure (a : α) (σ : Plan) : Leads (pure a) σ fun a' σ' => a' = a ∧ σ' = σ := by
  rintro a' d hrun
  cases hrun
  exact ⟨σ, rfl, rfl, rfl⟩

theorem leads_currentBlock (σ : Plan) :
    Leads currentBlock σ fun b σ' => b = σ.current ∧ σ' = σ := by
  rintro b d hrun
  cases hrun
  exact ⟨σ, rfl, rfl, rfl⟩

theorem leads_typeOf (v : Value) (σ : Plan) :
    Leads (typeOf v) σ fun ty σ' => ty = σ.builder.ty v ∧ σ' = σ := by
  rintro ty d hrun
  cases hrun
  exact ⟨σ, rfl, rfl, rfl⟩

theorem leads_emit (inst : Inst) (ty : Ty) (σ : Plan) :
    Leads (emit inst ty) σ fun v σ' => v = ⟨σ.builder.valueCount⟩ ∧ σ' = σ.emit inst ty := by
  rintro v d hrun
  cases hrun
  exact ⟨σ.emit inst ty, rfl, rfl, rfl⟩

theorem leads_newBlock (label : String) (σ : Plan) :
    Leads (newBlock label) σ fun b σ' =>
      b = ⟨σ.builder.blockCount⟩ ∧ σ' = σ.newBlock label := by
  rintro b d hrun
  cases hrun
  exact ⟨σ.newBlock label, rfl, rfl, rfl⟩

/-- A block can be taken to stand behind any blocks. -/
theorem leads_setCurrent (b : Block) (σ : Plan) (s : List Block) :
    Leads (setCurrent b) σ fun _ σ' => σ' = σ.enter b s := by
  rintro ⟨⟩ d hrun
  cases hrun
  exact ⟨σ.enter b s, rfl, rfl⟩

theorem leads_terminate (t : Terminator) (σ : Plan) :
    Leads (terminate t) σ fun _ σ' => σ' = σ.terminate t := by
  rintro ⟨⟩ d hrun
  cases hrun
  exact ⟨σ.terminate t, rfl, rfl⟩

theorem leads_invoke (callee : String) (arguments : List Value) (result : Ty)
    (normal unwind : Block) (σ : Plan) :
    Leads (build fun b => b.invoke callee arguments result normal unwind) σ fun v σ' =>
      v = ⟨σ.builder.valueCount⟩ ∧ σ' = σ.invoke callee arguments result normal unwind := by
  rintro v d hrun
  cases hrun
  exact ⟨σ.invoke callee arguments result normal unwind, rfl, rfl, rfl⟩

theorem leads_declare (x : SymbolId) (ty : Ty) (σ : Plan) :
    Leads (declare x ty) σ fun _ σ' => σ' = σ.declare x ty := by
  rintro ⟨⟩ d hrun
  cases hrun
  exact ⟨σ.declare x ty, rfl, rfl⟩

theorem leads_write (x : SymbolId) (v : Value) (σ : Plan) :
    Leads (write x σ.current v) σ fun _ σ' => σ' = σ.write x v := by
  rintro ⟨⟩ d hrun
  cases hrun
  exact ⟨σ.write x v, rfl, rfl⟩

theorem leads_read (x : SymbolId) (σ : Plan) : Leads (read x σ.current) σ fun v σ' =>
    ∃ d, (read x σ.current).on σ.record.draft = (.ok v, d) ∧ σ' = σ.read x v d :=
  fun v d hrun => ⟨σ.read x v d, rfl, d, hrun, rfl⟩

theorem leads_sealBlock (b : Block) (σ : Plan) : Leads (sealBlock b) σ fun _ σ' =>
    ∃ d, (sealBlock b).on σ.record.draft = (.ok (), d) ∧ σ' = σ.sealed b d :=
  fun ⟨⟩ d hrun => ⟨σ.sealed b d, rfl, d, hrun, rfl⟩

end Drafting

/-! ## Parts of bodies -/

namespace Lower

variable {α β : Type} {work : Lower α} {next : α → Lower β} {σ : Plan} {s : State}
  {post mid : α → Plan → State → Prop} {post' : β → Plan → State → Prop}

/-- If the work succeeds, it leads from the plan of its draft to another one. -/
def Leads (work : Lower α) (σ : Plan) (s : State) (post : α → Plan → State → Prop) : Prop :=
  s.draft = σ.record.draft → ∀ a s', work s = .ok (a, s') →
    ∃ σ' : Plan, s'.draft = σ'.record.draft ∧ post a σ' s'

/-- The first step of work that succeeds has succeeded. -/
theorem bind_ok {s' : State} {b : β} (h : (work >>= next) s = .ok (b, s')) :
    ∃ a s₁, work s = .ok (a, s₁) ∧ next a s₁ = .ok (b, s') := by
  have h' : (work s >>= fun p => next p.1 p.2) = .ok (b, s') := h
  cases hwork : work s with
  | error e =>
      rw [hwork] at h'
      cases h'
  | ok p =>
      rw [hwork] at h'
      exact ⟨p.1, p.2, rfl, h'⟩

theorem Leads.bind (h : Leads work σ s mid)
    (hnext : ∀ a σ₁ s₁, mid a σ₁ s₁ → Leads (next a) σ₁ s₁ post') :
    Leads (work >>= next) σ s post' := by
  intro hdraft b s' hrun
  obtain ⟨a, s₁, hwork, hrest⟩ := bind_ok hrun
  obtain ⟨σ₁, hdraft₁, hmid⟩ := h hdraft a s₁ hwork
  exact hnext a σ₁ s₁ hmid hdraft₁ b s' hrest

theorem Leads.mono (h : Leads work σ s mid) (himp : ∀ a σ' s', mid a σ' s' → post a σ' s') :
    Leads work σ s post := by
  intro hdraft a s' hrun
  obtain ⟨σ', hdraft', hmid⟩ := h hdraft a s' hrun
  exact ⟨σ', hdraft', himp a σ' s' hmid⟩

theorem leads_pure {a : α} (h : post a σ s) : Leads (pure a) σ s post := by
  rintro hdraft a' s' hrun
  cases hrun
  exact ⟨σ, hdraft, h⟩

/-- Work that fails leads anywhere. -/
theorem leads_throw (e : LoweringError) : Leads (throw e) σ s post := by
  rintro - a' s' hrun
  cases hrun

theorem leads_onDraft {work : Drafting α} {mid : α → Plan → Prop} (h : Drafting.Leads work σ mid)
    (himp : ∀ a σ', mid a σ' → post a σ' { s with draft := σ'.record.draft }) :
    Leads (onDraft work) σ s post := by
  intro hdraft a s' hrun
  unfold onDraft at hrun
  rw [hdraft] at hrun
  split at hrun
  · next a d hwork =>
    cases hrun
    obtain ⟨σ', rfl, hmid⟩ := h _ _ hwork
    exact ⟨σ', rfl, himp _ σ' hmid⟩
  · cases hrun

theorem Leads.located (h : Leads work σ s post) (span : Span) :
    Leads (located span work) σ s post := by
  intro hdraft a s' hrun
  unfold Lower.located at hrun
  split at hrun
  · next result hwork =>
    cases hrun
    exact h hdraft a s' hwork
  · cases hrun

/-- Work on the names alone leaves the plan. -/
theorem leads_onSymbols {work : SymbolTable → Except LoweringError (α × SymbolTable)}
    (himp : ∀ a symbols, work s.symbols = .ok (a, symbols) → post a σ { s with symbols }) :
    Leads (onSymbols work) σ s post := by
  intro hdraft a s' hrun
  unfold onSymbols at hrun
  split at hrun
  · next a symbols hwork =>
    cases hrun
    exact ⟨σ, hdraft, himp _ symbols hwork⟩
  · cases hrun

theorem leads_modify {change : State → State} (hdraft : (change s).draft = s.draft)
    {post : PUnit → Plan → State → Prop} (h : post ⟨⟩ σ (change s)) :
    Leads (modify change : Lower PUnit) σ s post := by
  rintro hs ⟨⟩ s' hrun
  cases hrun
  exact ⟨σ, hdraft.trans hs, h⟩

theorem Leads.inScope (h : Leads work σ { s with symbols := s.symbols.pushScope } mid)
    (himp : ∀ a σ' s' symbols', mid a σ' s' → s'.symbols.popScope = .ok symbols' →
      post a σ' { s' with symbols := symbols' }) : Leads (inScope work) σ s post := by
  apply Leads.bind
  case mid => exact fun _ σ' s' => σ' = σ ∧ s' = { s with symbols := s.symbols.pushScope }
  case h => exact leads_modify rfl ⟨rfl, rfl⟩
  rintro ⟨⟩ σ₁ s₁ ⟨rfl, rfl⟩
  refine h.bind fun a σ₂ s₂ hmid => ?_
  apply Leads.bind
  case mid => exact fun _ σ' s' => post a σ' s'
  case h =>
    refine leads_onSymbols fun _ symbols hpop => ?_
    cases hresult : s₂.symbols.popScope with
    | error e => simp [hresult] at hpop
    | ok after =>
        rw [hresult] at hpop
        cases hpop
        exact himp a σ₂ s₂ _ hmid hresult
  exact fun _ _ _ hpost => leads_pure hpost

/-- Reading the names leaves everything. -/
theorem leads_variableOf {name : String} {post : SymbolId → Plan → State → Prop}
    (himp : ∀ x, s.symbols.findVariable name = .ok x → post x σ s) :
    Leads (variableOf name) σ s post := by
  intro hdraft x s' hrun
  unfold variableOf at hrun
  split at hrun
  · next id hfind =>
    cases hrun
    exact ⟨σ, hdraft, himp _ hfind⟩
  · cases hrun

end Lower

end Abacus.Lowering
