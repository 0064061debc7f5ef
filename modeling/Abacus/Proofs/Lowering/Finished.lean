import Abacus.Proofs.Lowering.Scopes

/-!
# Finished functions

What holds of the plan of a function that has been lowered, whatever its source text.

* `Made.complete` — its recording is complete, so that reads find what has been written last;
* `Made.neat` — variables are written with values of their type;
* `Made.raises_iff` — a fault is raised somewhere if and only if the fault flag is set;
* `Made.fenced`, `Made.guarded`, `Made.calls` — it is ready for the faults that calls may raise.
-/

namespace Abacus.Lowering

open Abacus.Flow (Value Block Ty Inst Terminator Builder Function)

/-- All names stand for functions, and their identities differ. -/
structure SymbolTable.Global (t : SymbolTable) : Prop where
  orderly : t.Orderly
  functions : ∀ e ∈ t.entries, e.2.binding ≠ .var

namespace Plan

variable {σ σ' ω : Plan} {config : FaultConfig} {opened symbols symbols' : SymbolTable}
  {b : Bool}

/-! ## Opening -/

/-- What has been opened has read and written nothing, and calls nothing. -/
structure Fresh (σ : Plan) (arity : Nat) : Prop where
  script : ∀ c e, e ∈ σ.record.script c → ∃ v, e = .inst v
  terminator : ∀ c, σ.terminator? c = none
  type : ∀ x, σ.known.type? x = none
  params : ∀ i < arity, σ.builder.ty ⟨i⟩ = .int
  calls : ∀ v callee arguments, (σ.builder.valueInfo v).inst ≠ .call callee arguments

theorem Opens.fresh {name : String} {arity : Nat} (h : Opens name arity σ) : Fresh σ arity := by
  obtain ⟨hseal⟩ := h
  have hsilent := silent_sealed hseal
  have hstart := sound_start name (List.replicate arity .int) .int
  obtain ⟨-, e, -, -, -, hterm⟩ := hstart.sealBlock
    (b := Function.entry) hstart.record.entry (fun q hq => by rw [hstart.start.2] at hq; cases hq) hseal
  constructor
  case script =>
    intro c e he
    change e ∈ (if c = Function.entry then _ else _) at he
    split at he
    · obtain ⟨i, -, rfl⟩ := List.mem_map.1 he
      exact ⟨_, rfl⟩
    · cases he
  case terminator =>
    intro c
    rw [hterm]
    unfold terminator?
    rw [show (start name _ _).builder.info c = _ from Recording.info_start ..]
    split <;> rfl
  case type =>
    intro x
    rw [hsilent.type]
    show (∅ : Std.TreeMap SymbolId Ty)[x]? = none
    simp
  case params =>
    intro i hi
    rw [(has_param name hi).ty hstart e]
    show ((Builder.paramValues (List.replicate arity Ty.int)).getD i default).ty = .int
    simp [Builder.paramValues, Array.getD_eq_getD_getElem?, hi]
  case calls =>
    intro v callee arguments hcall
    have hstarted := hsilent.calls hcall
    change ((Builder.paramValues (List.replicate arity Ty.int)).getD v.index default).inst = _
      at hstarted
    rw [Builder.paramValues, Array.getD_eq_getD_getElem?, List.getElem?_toArray,
      List.getElem?_map] at hstarted
    cases hparam : (List.replicate arity Ty.int).zipIdx[v.index]? with
    | none =>
      rw [hparam] at hstarted
      cases hstarted
    | some param =>
      rw [hparam] at hstarted
      cases hstarted

theorem Fresh.neat {arity : Nat} (h : Fresh σ arity) : Neat ω σ where
  reads {c x r front back} hsplit := by
    have hmem : .read x r ∈ σ.record.script c := by
      rw [hsplit]
      simp
    obtain ⟨v, hv⟩ := h.script _ _ hmem
    cases hv
  writes hmem := by
    obtain ⟨v, hv⟩ := h.script _ _ hmem
    cases hv

theorem Fresh.knows {arity : Nat} (h : Fresh σ arity) (hglobal : symbols.Global) :
    σ.Knows symbols symbols where
  orderly := hglobal.orderly
  written e he hvar := absurd hvar (hglobal.functions e he)
  undeclared x _ := h.type x
  functions h _ := h

/-! ## Bodies -/

theorem Kept.trans {t t₁ t₂ : SymbolTable} {σ₁ σ₂ : Plan} {b₁ b₂ : Bool}
    (h₁ : Kept config opened σ t σ₁ t₁ b₁) (h₂ : Kept config opened σ₁ t₁ σ₂ t₂ b₂) (e : Extends σ₁ σ₂) :
    Kept config opened σ t σ₂ t₂ (b₁ || b₂) :=
  ⟨h₁.grown.trans h₂.grown, h₂.knows, fun hω e' => (h₁.tidy hω (e.trans e')).trans (h₂.tidy hω e')⟩

theorem Parameters.kept {names : List String} {i : Nat}
    (h : Parameters names i symbols σ symbols' σ') (hσ : σ.Ready) (hk : σ.Knows opened symbols)
    (hparams : ∀ k < i + names.length, σ.Has σ.current ⟨k⟩ ∧ σ.builder.ty ⟨k⟩ = .int) :
    Kept config opened σ symbols σ' symbols' false := by
  induction h with
  | nil => exact ⟨.rfl' _, hk, fun _ _ => (silent_rfl _).quiet⟩
  | @cons name names i symbols σ x symbols₁ symbols' σ' hdefine hrest ih =>
    obtain ⟨hhas, hty⟩ := hparams i (by simp)
    have hintroduced : _ ∧ ∀ {ω}, Extends _ ω → Tidy config opened ω σ _ false :=
      hk.introduce hσ hdefine hhas
    rw [hty] at hintroduced
    obtain ⟨hk₁, htidy⟩ := hintroduced
    obtain ⟨hready, hadvance⟩ := advance_introduce hσ x .int hhas
    have hparams₁ : ∀ k < i + 1 + names.length, ((σ.declare x .int).write x ⟨i⟩).Has
        ((σ.declare x .int).write x ⟨i⟩).current ⟨k⟩ ∧
          ((σ.declare x .int).write x ⟨i⟩).builder.ty ⟨k⟩ = .int := by
      intro k hk
      obtain ⟨hhas, hty⟩ := hparams k (by simp only [List.length_cons]; omega)
      exact ⟨hadvance.has hσ.sound hhas, hty⟩
    have hfirst : Kept config opened σ symbols _ symbols₁ false := ⟨.define hdefine, hk₁, fun _ e => htidy e⟩
    exact hfirst.trans (ih hready hk₁ hparams₁)
      (hrest.advance hready fun k hk => (hparams₁ k hk).1).2.since.extends'

theorem Resulting.silent {r r' : Option Value} (h : Resulting σ r r' σ') : Silent σ σ' := by
  cases h with
  | none => exact silent_rfl _
  | some hcoerced => exact hcoerced.silent

/-- From the opening of a function to the end of its statements, everything is kept. -/
theorem Body.kept {routine : Routine} {r : Option Value}
    (h : Body config symbols routine b r symbols' σ') (hglobal : symbols.Global) :
    ∃ σ arity σ₁ symbols₁, Fresh σ arity ∧ Kept config symbols σ symbols.pushScope σ₁ symbols₁ b ∧
      symbols₁.popScope = .ok symbols' ∧ Extends σ₁ σ' ∧ Silent σ₁ σ' := by
  cases h with
  | @definition _ parameters _ σ _ _ _ _ _ _ _ hopens hparams hbody hpop =>
    have hbegun := hopens.begun
    have hfresh := hopens.fresh
    have hall : ∀ k < 0 + parameters.length, σ.Has σ.current ⟨k⟩ ∧ σ.builder.ty ⟨k⟩ = .int :=
      fun k hk => ⟨hbegun.current ▸ hbegun.params k (by omega), hfresh.params k (by omega)⟩
    have hk₁ : Kept config symbols _ _ _ _ _ :=
      hparams.kept hbegun.ready (hfresh.knows hglobal).pushScope hall
    obtain ⟨hready₁, -⟩ := hparams.advance hbegun.ready fun k hk => (hall k hk).1
    have hk₂ := hk₁.trans (hbody.kept hready₁ hk₁.knows) (hbody.advance hready₁).2.1.since.extends'
    rw [Bool.false_or] at hk₂
    exact ⟨_, _, _, _, hfresh, hk₂, hpop, .rfl' _, silent_rfl _⟩
  | statements hopens hitems hpop hresult =>
    have hready := hopens.begun.ready
    have hk := hitems.kept hready (hopens.fresh.knows hglobal).pushScope
    obtain ⟨hready₁, -, hr⟩ := hitems.advance hready
    exact ⟨_, _, _, _, hopens.fresh, hk, hpop, (hresult.gives hready₁ hr).2.1.since.extends',
      hresult.silent⟩

/-- What lowering has done to a function before its end. -/
theorem Body.tidy {routine : Routine} {r : Option Value}
    (h : Body config symbols routine b r symbols' σ') (hglobal : symbols.Global) (hω : ω.Sound)
    (e : Extends σ' ω) : ∃ σ arity, Fresh σ arity ∧ Tidy config symbols ω σ σ' b := by
  obtain ⟨σ, arity, σ₁, symbols₁, hfresh, hkept, -, e₁, hsilent⟩ := h.kept hglobal
  exact ⟨σ, arity, hfresh, (hkept.tidy hω (e₁.trans e)).then hsilent.quiet⟩

/-- After a body the names are those from before it. -/
theorem Body.closed {routine : Routine} {r : Option Value}
    (h : Body config symbols routine b r symbols' σ') (hglobal : symbols.Global) :
    symbols'.scopes = symbols.scopes ∧ symbols'.Orderly := by
  obtain ⟨_, _, _, _, -, hkept, hpop, -⟩ := h.kept hglobal
  exact ⟨(hkept.grown.popped hpop).1, hkept.knows.orderly.popped hkept.grown hpop⟩

theorem Ended.silent {r : Option Value} (h : Ended σ r σ') : Silent σ σ' := by
  cases h with
  | value v => exact silent_terminate _ (by simp)
  | zero => exact (silent_emit (by simp)).trans (silent_terminate _ (by simp))

/-! ## Places -/

theorem Sound.mem_instsOf (hσ : σ.Sound) {q : Block} {v : Value} :
    v ∈ instsOf (σ.record.script q) ↔
      v ∈ (σ.builder.info q).insts ∨ ∃ normal unwind, σ.terminator? q = some (.invoke v normal unwind) := by
  rw [show instsOf (σ.record.script q) = _ from hσ.insts q, List.mem_append, Array.mem_toList_iff]
  refine or_congr_right ?_
  cases hterm : σ.terminator? q with
  | none => simp [endCall?]
  | some t => cases t <;> simp [endCall?, eq_comm]

/-- What stands in a block has been made there. -/
theorem Sound.block_of_listed (hσ : σ.Sound) {q : Block} {v : Value}
    (hv : v ∈ instsOf (σ.record.script q)) : (σ.builder.valueInfo v).block = q := by
  obtain ⟨e, he, hinst⟩ := List.mem_filterMap.1 hv
  obtain rfl : e = .inst v := by
    cases e with
    | inst w => cases hinst; rfl
    | write x w => cases hinst
    | read x w => cases hinst
  exact (hσ.record.listed he).2

/-- A call at the end of a block does not stand among instructions as well. -/
theorem Sound.ne_end_of_inst (hσ : σ.Sound) {q c : Block} {v : Value} {normal unwind : Block}
    (hv : v ∈ (σ.builder.info q).insts) : σ.terminator? c ≠ some (.invoke v normal unwind) := by
  intro hc
  have hq := hσ.block_of_listed (hσ.mem_instsOf.2 (.inl hv))
  have hend := hσ.block_of_listed (hσ.mem_instsOf.2 (.inr ⟨_, _, hc⟩))
  obtain rfl : q = c := hq.symm.trans hend
  have honce := hσ.record.once q
  rw [hσ.insts, hc, List.nodup_append] at honce
  exact honce.2.2 v (Array.mem_toList_iff.2 hv) v (List.mem_singleton_self v) rfl

/-! ## Finished functions -/

section

variable {routine : Routine} (h : Made config symbols routine b symbols' ω)
  (hglobal : symbols.Global)
include h hglobal

theorem Made.tidy : ∃ σ arity, Fresh σ arity ∧ Tidy config symbols ω σ ω b := by
  have hω := h.closed.1
  obtain ⟨hbody, hended⟩ := h
  obtain ⟨_, -, hready, -, hr⟩ := hbody.advance
  obtain ⟨σ, arity, hfresh, htidy⟩ := hbody.tidy hglobal hω (hended.since hready hr).2.extends'
  exact ⟨σ, arity, hfresh, htidy.then hended.silent.quiet⟩

/-- Variables are written with values of their type. -/
theorem Made.neat : Neat ω ω := by
  obtain ⟨σ, arity, hfresh, htidy⟩ := h.tidy hglobal
  exact htidy.neat hfresh.neat

/-- Where a fault is raised, the fault flag is set, and the fault is that of the program. -/
theorem Made.raised {q : Block} {v : Value} (hq : ω.terminator? q = some (.raise v)) :
    b = true ∧ (ω.builder.valueInfo v).inst = .faultAlloc config.code config.typeId := by
  obtain ⟨σ, arity, hfresh, htidy⟩ := h.tidy hglobal
  refine (htidy.raised hq).resolve_left ?_
  rw [hfresh.terminator]
  simp

/-- A fault is raised somewhere if and only if the fault flag is set. -/
theorem Made.raises_iff : ω.Raises ↔ b = true := by
  obtain ⟨σ, arity, hfresh, htidy⟩ := h.tidy hglobal
  refine ⟨?_, htidy.raises⟩
  rintro ⟨q, v, hq⟩
  exact (h.raised hglobal hq).1

/-- Faults are passed on only where none come to. -/
theorem Made.fenced {q : Block} {v : Value} (hq : ω.terminator? q = some (.resume v)) :
    Fenced config ω q := by
  obtain ⟨σ, arity, hfresh, htidy⟩ := h.tidy hglobal
  refine (htidy.resumed hq).resolve_left ?_
  rw [hfresh.terminator]
  simp

/-- Every call is one of a function that was known at the start, and stands where it should. -/
theorem Made.guarded {v : Value} {callee : String} {arguments : List Value}
    (hcall : ω.builder.function.inst v = .call callee arguments) :
    Guarded symbols ω v callee arguments := by
  obtain ⟨σ, arity, hfresh, htidy⟩ := h.tidy hglobal
  exact (htidy.calls hcall).resolve_left (hfresh.calls v callee arguments)

/-- A call among the instructions of a block is one of a function that raises no fault, as far as is
known at the start. -/
theorem Made.calls {q : Block} {v : Value} {callee : String} {arguments : List Value}
    (hv : v ∈ (ω.builder.info q).insts) (hcall : ω.builder.function.inst v = .call callee arguments) :
    ∃ id arity, symbols.lookup? callee = some ⟨id, .function arity false⟩ := by
  obtain ⟨-, id, mayFault, hlookup, hstands⟩ := h.guarded hglobal hcall
  cases mayFault with
  | false => exact ⟨id, _, hlookup⟩
  | true =>
    obtain ⟨c, normal, unwind, hc⟩ := hstands
    exact absurd hc (h.closed.1.ne_end_of_inst hv)

/-- The recording of a function that has been lowered is complete. -/
theorem Made.complete : ω.record.Complete := by
  obtain ⟨hω, hclosed⟩ := h.closed
  constructor
  case closed => exact fun c hc => (hclosed c hc).1
  case acyclic => exact hω.acyclic
  case defined =>
    intro c x v front back hscript
    obtain ⟨-, ⟨hspine, hlisted⟩, hhere⟩ := hω.uses hscript v (List.mem_singleton_self v)
    by_cases hc : (ω.builder.valueInfo v).block = c
    · exact (hhere hc).imp_right .inl
    · exact .inr (.inr ⟨_, hc, hω.dominates hspine, hlisted⟩)
  case covered =>
    intro c x r front back p hscript hpath
    refine ((h.neat hglobal).reads hscript).imp_right ?_
    rintro ⟨a, ha, hne, hwrite⟩
    refine ⟨a, ?_, hwrite⟩
    rcases List.mem_append.1 (hω.dominates ha p hpath) with hmem | hmem
    · exact hmem
    · exact absurd (List.mem_singleton.1 hmem) hne

end

end Plan

end Abacus.Lowering
