import Abacus.Proofs.Lowering.Failures
import Abacus.Proofs.Lowering.Functions

/-!
# Lowering gives functions that verify

Every function that lowering gives has a well-formed graph, so the verifier has nothing to say. It
makes no difference whether it is asked.

* `lowerFunction_verify`, `lowerStatements_verify` — verification changes nothing for one function;
* `lowerUnit_made` — what holds of all functions that are lowered holds of those of a unit;
* `lowerUnit_verifies` — verification changes nothing for a unit.
-/

namespace Abacus.Lowering

open Abacus.Flow (Value Block Ty Inst Terminator Builder Function)
open Plan

variable {fault : FaultConfig} {symbols : SymbolTable}

/-! ## One function -/

/-- The verifier finds nothing wrong with a function that has been lowered. -/
theorem Plan.Made.violation?_eq_none {routine : Routine} {b : Bool} {symbols' : SymbolTable}
    {σ : Plan} (h : Made fault symbols routine b symbols' σ) :
    σ.builder.function.violation? = none := h.wellFormed.valid.violation?_eq_none

theorem lowerFunction_verify (verify : Bool) (span : Span) (name : String) (names : List String)
    (body : Tree) : lowerFunction ⟨fault, verify⟩ symbols span name names body
      = lowerFunction ⟨fault, false⟩ symbols span name names body := by
  unfold lowerFunction
  refine except_bind_congr fun start hopen => except_bind_congr fun result hbody => ?_
  obtain ⟨id, opened, σ, -, hopens, rfl⟩ := openFunction_ok (locateError_eq_ok hopen)
  obtain ⟨⟨⟩, s⟩ := result
  obtain ⟨σ₁, hdraft, b, hmade, -⟩ := Lower.leads_definition fault span body hopens rfl () s hbody
  obtain ⟨_, -, hready, -⟩ := hmade.advance
  have hclose : closeFunction ⟨fault, verify⟩ name names.length none s = _ :=
    closeFunction_verify hdraft hready
      (fun σ' hended => (Made.intro hmade hended).violation?_eq_none) verify
  dsimp only
  rw [hclose]

theorem lowerStatements_verify (verify : Bool) (name : String) (items : List Tree) :
    lowerStatements ⟨fault, verify⟩ symbols name items
      = lowerStatements ⟨fault, false⟩ symbols name items := by
  rw [lowerStatements_eq, lowerStatements_eq]
  refine except_bind_congr fun start hopen => except_bind_congr fun result hbody =>
    except_bind_congr fun result' hresult => ?_
  obtain ⟨id, opened, σ, -, hopens, rfl⟩ := openFunction_ok (locateError_eq_ok hopen)
  obtain ⟨last?, s⟩ := result
  obtain ⟨r, s'⟩ := result'
  obtain ⟨σ₁, hdraft, b, symbols₁, hitems, hpop, -⟩ :=
    Lower.leads_topLevel fault items hopens.begun.ready rfl last? s hbody
  obtain ⟨σ₂, hresulting, rfl⟩ := integerResult_ok hdraft hresult
  have hmade : Body fault opened (.statements name items) b r s.symbols σ₂ :=
    .statements hopens hitems hpop hresulting
  obtain ⟨_, -, hready, -⟩ := hmade.advance
  have hclose : closeFunction ⟨fault, verify⟩ name 0 r { s with draft := σ₂.record.draft } = _ :=
    closeFunction_verify rfl hready
      (fun σ' hended => (Made.intro hmade hended).violation?_eq_none) verify
  dsimp only
  rw [hclose]

/-! ## Units -/

theorem lowerItem_verify (verify : Bool) (progress : Progress) (item : Tree) :
    lowerItem ⟨fault, verify⟩ progress item = lowerItem ⟨fault, false⟩ progress item := by
  unfold lowerItem
  split
  · rw [lowerFunction_verify]
  · rfl

/-- Verification makes no difference to a unit. -/
theorem lowerUnit_verify (verify : Bool) (exports : List Export) (unitName : String)
    (tree? : Option Tree) : lowerUnit ⟨fault, verify⟩ exports unitName tree?
      = lowerUnit ⟨fault, false⟩ exports unitName tree? := by
  have hitem : lowerItem ⟨fault, verify⟩ = lowerItem ⟨fault, false⟩ :=
    funext fun progress => funext fun item => lowerItem_verify verify progress item
  unfold lowerUnit
  simp only [hitem, lowerStatements_verify verify]

/-- What a property says of the state holds after all items if each item keeps it. -/
theorem foldlM_invariant {α β : Type} {step : β → α → Except LoweringError β} {P : β → Prop}
    (hstep : ∀ b a b', P b → step b a = .ok b' → P b') {l : List α} {b b' : β} (hb : P b)
    (h : l.foldlM step b = .ok b') : P b' := by
  induction l generalizing b with
  | nil =>
    cases h
    exact hb
  | cons a l ih =>
    rw [List.foldlM_cons] at h
    obtain ⟨mid, hfirst, hrest⟩ := except_bind_ok h
    exact ih (hstep b a mid hb hfirst) hrest

/-- The functions of a unit are functions that have been lowered. -/
theorem lowerUnit_made {options : Options} {exports : List Export} {unitName : String}
    {tree? : Option Tree} {emission : Emission}
    (h : lowerUnit options exports unitName tree? = .ok emission) :
    ∀ f ∈ emission.module.functions, ∃ symbols routine b symbols' σ,
      Made options.fault symbols routine b symbols' σ ∧ f = σ.builder.function := by
  have hstep : ∀ (progress : Progress) item progress',
      (∀ f ∈ progress.functions, ∃ symbols routine b symbols' σ,
        Made options.fault symbols routine b symbols' σ ∧ f = σ.builder.function) →
      lowerItem options progress item = .ok progress' →
      ∀ f ∈ progress'.functions, ∃ symbols routine b symbols' σ,
        Made options.fault symbols routine b symbols' σ ∧ f = σ.builder.function := by
    intro progress item progress' hprogress hitem
    unfold lowerItem at hitem
    split at hitem
    · obtain ⟨⟨f, entry, symbols'⟩, hlower, hitem⟩ := except_bind_ok hitem
      obtain ⟨id, opened, b, closed, σ, -, hmade, hf, -⟩ := lowerFunction_made hlower
      cases hitem
      intro g hg
      rcases Array.mem_push.1 hg with hg | rfl
      · exact hprogress g hg
      · exact ⟨_, _, _, _, _, hmade, hf⟩
    · cases hitem
      exact hprogress
  obtain ⟨symbols, -, h⟩ := except_bind_ok h
  cases tree? with
  | none => cases h
  | some tree =>
    obtain ⟨progress, hitems, h⟩ := except_bind_ok h
    have hall := foldlM_invariant hstep (by simp) hitems
    split at h
    · cases h
      intro f hf
      exact hall f (by simpa using hf)
    · obtain ⟨g, hlower, h⟩ := except_bind_ok h
      obtain ⟨id, opened, b, closed, σ, -, hmade, hg⟩ := lowerStatements_made hlower
      cases h
      intro f hf
      rcases Array.mem_push.1 (Array.mem_toList_iff.1 hf) with hf | rfl
      · exact hall f hf
      · exact ⟨_, _, _, _, _, hmade, hg⟩

/-- Every function that lowering gives passes the verifier: lowering without verification gives
verified functions, lowering with verification gives the same functions, exports and errors, and
none of the errors comes from the verifier. -/
theorem lowerUnit_verifies (fault : FaultConfig) (exports : List Export) (unitName : String)
    (tree? : Option Tree) :
    (∀ emission, lowerUnit ⟨fault, false⟩ exports unitName tree? = .ok emission →
      ∀ f ∈ emission.module.functions, f.violation? = none) ∧
    lowerUnit ⟨fault, true⟩ exports unitName tree?
      = lowerUnit ⟨fault, false⟩ exports unitName tree? ∧
    ∀ verify e, lowerUnit ⟨fault, verify⟩ exports unitName tree? = .error e →
      ∀ violation, e.cause ≠ .internal (.invalid violation) := by
  refine ⟨fun emission h f hf => ?_, lowerUnit_verify true exports unitName tree?, ?_⟩
  · obtain ⟨symbols, routine, b, symbols', σ, hmade, rfl⟩ := lowerUnit_made h f hf
    exact hmade.violation?_eq_none
  · intro verify e h violation hcause
    rw [lowerUnit_verify verify] at h
    exact clean_lowerUnit fault exports unitName tree? e h ⟨violation, hcause⟩

end Abacus.Lowering
