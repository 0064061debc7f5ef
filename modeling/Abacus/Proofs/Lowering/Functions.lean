import Abacus.Lowering.Unit
import Abacus.Proofs.Flow.Verifying
import Abacus.Proofs.Lowering.Statements

/-!
# How functions are lowered

A function is lowered by opening it, making variables of its parameters, lowering its statements and
ending its last block. `Plan.Made` says through which plans this goes. At the end every block has
been finished, so the graph has what well-formed functions have.

* `Plan.Sound.wellFormed` — a plan in order in which every block is finished has a well-formed graph;
* `Plan.Made.closed` — the plan of a function that has been lowered is such a plan;
* `Lower.lowerFunction_made`, `Lower.lowerStatements_made` — the lowering of a function does what the
  relation says.
-/

namespace Abacus.Lowering

open Abacus.Flow (Value Block Ty Inst Terminator Builder Function)

/-! ## Graphs of finished plans -/

namespace Plan

/-- Every block has been finished. -/
def Closed (σ : Plan) : Prop := ∀ b : Block, b.index < σ.builder.blockCount →
  σ.known.isSealed b = true ∧ (σ.terminator? b).isSome

section

variable {σ : Plan} (h : σ.Sound)
include h

/-- A value that can be used behind some events is defined there once their instructions are. -/
theorem Sound.definedAt {b : Block} {front : List Event} {v : Value} (hv : σ.Usable b front v) :
    σ.builder.function.DefinedAt b (front.filterMap Event.inst? ++ (σ.builder.info b).phis) v := by
  obtain ⟨-, ⟨hmem, -⟩, hhere⟩ := hv
  refine ⟨h.dominates hmem, fun hb => ?_⟩
  rcases hhere hb with hin | hphi
  · exact List.mem_append_left _ (List.mem_filterMap.2 ⟨_, hin, rfl⟩)
  · exact List.mem_append_right _ hphi

/-- The operands of what stands among the events of a block are defined there. -/
theorem Sound.operands_definedAt {b : Block} {before : List Value} {v : Value} {after : List Value}
    (hsplit : (σ.record.script b).filterMap Event.inst? = before ++ v :: after) :
    ∀ u ∈ (σ.builder.valueInfo v).inst.operands,
      σ.builder.function.DefinedAt b (before ++ (σ.builder.info b).phis) u := by
  obtain ⟨front, rest, hscript, rfl, hrest⟩ := List.filterMap_eq_append_iff.1 hsplit
  obtain ⟨between, e, back, rfl, hbetween, he, -⟩ := List.filterMap_eq_cons_iff.1 hrest
  have he' : e = .inst v := by
    cases e with
    | inst w => cases he; rfl
    | write x w => cases he
    | read x w => cases he
  subst he'
  rw [← List.append_assoc] at hscript
  intro u hu
  have hdefined := h.definedAt (h.uses hscript u hu)
  have hnone : between.filterMap Event.inst? = [] := List.filterMap_eq_nil_iff.2 hbetween
  rwa [List.filterMap_append, hnone, List.append_nil] at hdefined

/-- The phis of a sealed block have their operands. -/
theorem Sound.filled {b : Block} {phi : Value} (hphi : phi ∈ (σ.builder.info b).phis)
    (hsealed : σ.known.isSealed b = true) : ∃ x, σ.record.draft.Filled x b phi := by
  obtain ⟨x, howner⟩ := Option.ne_none_iff_exists'.1 (h.owned hphi)
  have hblock : (σ.builder.valueInfo phi).block = b := (h.record.phis hphi).2
  refine ⟨x, ?_⟩
  rcases h.record.coherent.stage howner with ⟨-, hopen⟩ | ⟨-, hmem | hfilled⟩
  · rw [hblock] at hopen
    exact absurd hsealed (by rw [hopen]; decide)
  · cases hmem
  · rwa [hblock] at hfilled

/-- A finished function is well formed. -/
theorem Sound.wellFormed (hclosed : σ.Closed) : σ.builder.function.WellFormed := by
  have hexists : ∀ {b : Block} {phi}, phi ∈ (σ.builder.info b).phis →
      b.index < σ.builder.blockCount := by
    intro b phi hphi
    by_contra hle
    have hnone : σ.builder.info b = default := Function.block_of_le (Nat.not_lt.1 hle)
    rw [hnone] at hphi
    cases hphi
  have hfilled : ∀ {b phi incoming}, phi ∈ (σ.builder.info b).phis →
      σ.builder.function.inst phi = .phi incoming →
      ∃ x, incoming.map Prod.fst = σ.builder.preds b ∧
        ∀ p ∈ incoming, σ.known.value? x p.1 = some p.2 := by
    intro b phi incoming hphi hinst
    obtain ⟨x, hblocks, hvalues⟩ := h.filled hphi (hclosed b (hexists hphi)).1
    rw [Builder.incoming_of_inst hinst] at hblocks hvalues
    exact ⟨x, hblocks, hvalues⟩
  constructor
  case ends =>
    intro b hb
    obtain ⟨t, ht⟩ := Option.isSome_iff_exists.1 (hclosed b hb).2
    refine ⟨t, ht, fun c hc => ?_⟩
    have hpred : b ∈ σ.builder.preds c :=
      (h.record.edges.mem b c).1 (by rw [Function.successors_eq ht]; exact hc)
    by_contra hle
    rw [Builder.preds_of_le (Nat.not_lt.1 hle)] at hpred
    cases hpred
  case edges => exact h.record.edges
  case phis =>
    intro b phi incoming hphi hinst
    obtain ⟨x, hblocks, -⟩ := hfilled hphi hinst
    exact hblocks
  case operands =>
    intro b phi incoming q v hphi hinst hmem
    obtain ⟨x, -, hvalues⟩ := hfilled hphi hinst
    exact h.dominates (h.bound (hvalues (q, v) hmem)).1
  case uses =>
    intro b front v back hinsts
    have hall := h.insts b
    rw [show (σ.builder.info b).insts.toList = _ from hinsts, List.append_assoc] at hall
    exact h.operands_definedAt hall
  case endUses =>
    intro b v hv
    have hall := h.insts b
    cases ht : σ.terminator? b with
    | none => simp [Function.terminatorUses, show (σ.builder.function.block b).terminator? = _ from ht] at hv
    | some t =>
      rw [ht] at hall
      have hplain : endCall? (some t) = none → v ∈ endOperands t → σ.builder.function.DefinedAt b
          ((σ.builder.info b).insts.toList ++ (σ.builder.info b).phis) v := by
        intro hcall hmem
        rw [hcall, Option.toList_none, List.append_nil] at hall
        rw [← hall]
        exact h.definedAt ((h.ends ht).2 v hmem)
      rw [Function.terminatorUses, show (σ.builder.function.block b).terminator? = _ from ht] at hv
      cases t with
      | invoke call normal unwind =>
        have hlast : (σ.record.script b).filterMap Event.inst?
            = (σ.builder.info b).insts.toList ++ call :: [] := hall
        exact h.operands_definedAt hlast v hv
      | jump target => cases hv
      | unreachable => cases hv
      | branch | ret | raise | resume => exact hplain rfl hv

end

/-! ## Opening and ending -/

/-- The plan of a function of which nothing has been done but to seal the entry. -/
inductive Opens (name : String) (arity : Nat) : Plan → Prop
  | intro {d : Draft} (sealed : (Drafting.sealBlock Function.entry).on
      (start name (List.replicate arity .int) .int).record.draft = (.ok (), d)) :
      Opens name arity ((start name (List.replicate arity .int) .int).sealed Function.entry d)

/-- What holds of a function when it has been opened. -/
structure Begun (σ : Plan) (arity : Nat) : Prop where
  ready : σ.Ready
  current : σ.current = Function.entry
  blockCount : σ.builder.blockCount = 1
  params : ∀ i < arity, σ.Has Function.entry ⟨i⟩

theorem has_param (name : String) {arity i : Nat} (hi : i < arity) :
    (start name (List.replicate arity .int) .int).Has Function.entry ⟨i⟩ := by
  have hlisted : (start name (List.replicate arity .int) .int).Listed Function.entry ⟨i⟩ := by
    refine .inl ?_
    show Event.inst ⟨i⟩ ∈ (List.range (List.replicate arity Ty.int).length).map (Event.inst ⟨·⟩)
    rw [List.length_replicate]
    exact List.mem_map.2 ⟨i, List.mem_range.2 hi, rfl⟩
  have hblock := ((sound_start name (List.replicate arity .int) .int).of_listed hlisted).2
  unfold Has
  rw [hblock, spine_entry]
  exact ⟨List.mem_singleton_self _, hlisted⟩

theorem Opens.begun {name : String} {arity : Nat} {σ : Plan} (h : Opens name arity σ) :
    Begun σ arity := by
  obtain ⟨hseal⟩ := h
  have hstart := sound_start name (List.replicate arity .int) .int
  obtain ⟨hsound, e, hcurrent, hsealed, -, hterm⟩ := hstart.sealBlock
    (b := Function.entry) hstart.record.entry (fun q hq => by rw [hstart.start.2] at hq; cases hq) hseal
  obtain ⟨_, hs⟩ := Recording.searches_seal hstart.record (b := Function.entry)
    hstart.record.entry hseal
  constructor
  case ready =>
    refine ⟨hsound, ?_, ?_⟩
    · rw [hcurrent]
      exact (hsealed _).2 (.inr rfl)
    · rw [hcurrent, hterm]
      rfl
  case current => exact hcurrent
  case blockCount => exact hs.blockCount
  case params => exact fun i hi => (has_param name hi).mono hstart e

theorem Opens.extends' {name : String} {arity : Nat} {σ : Plan} (h : Opens name arity σ) :
    Extends (start name (List.replicate arity .int) .int) σ := by
  obtain ⟨hseal⟩ := h
  have hstart := sound_start name (List.replicate arity .int) .int
  obtain ⟨-, e, -⟩ := hstart.sealBlock (b := Function.entry) hstart.record.entry
    (fun q hq => by rw [hstart.start.2] at hq; cases hq) hseal
  exact e

/-- The parameters become variables, which have the values that the entry reads. -/
inductive Parameters : List String → Nat → SymbolTable → Plan → SymbolTable → Plan → Prop
  | nil {i symbols σ} : Parameters [] i symbols σ symbols σ
  | cons {name names i symbols σ x symbols₁ symbols' σ'} :
      symbols.define name .var = .ok (x, symbols₁) →
      Parameters names (i + 1) symbols₁ ((σ.declare x .int).write x ⟨i⟩) symbols' σ' →
      Parameters (name :: names) i symbols σ symbols' σ'

theorem Parameters.advance {names : List String} {i : Nat} {symbols symbols' : SymbolTable}
    {σ σ' : Plan} (h : Parameters names i symbols σ symbols' σ') (hσ : σ.Ready)
    (hparams : ∀ k < i + names.length, σ.Has σ.current ⟨k⟩) : σ'.Ready ∧ Advance σ σ' := by
  induction h with
  | nil => exact ⟨hσ, .rfl' _⟩
  | @cons name names i symbols σ x symbols₁ symbols' σ' _ _ ih =>
    obtain ⟨hready, hadvance⟩ := advance_introduce hσ x .int (hparams i (by simp))
    obtain ⟨hready', hadvance'⟩ := ih hready fun k hk =>
      hadvance.has hσ.sound (hparams k (by simp only [List.length_cons]; omega))
    exact ⟨hready', hadvance.trans hadvance'⟩

/-- Control that reaches the end of a body gives back the value, or 0 if there is none. -/
inductive Ended (σ : Plan) : Option Value → Plan → Prop
  | value (v : Value) : Ended σ (some v) (σ.terminate (.ret v))
  | zero : Ended σ none ((σ.emit (.intConst 0) .int).terminate (.ret σ.next))

theorem Ended.since {σ σ' : Plan} {r : Option Value} (h : Ended σ r σ') (hσ : σ.Ready)
    (hr : ∀ v ∈ r, σ.Has σ.current v) : σ'.Sound ∧ Since σ σ' [] := by
  cases h with
  | value v => exact hσ.close rfl rfl fun u hu => List.mem_singleton.1 hu ▸ hr v rfl
  | zero =>
    have hzero := gives_emit hσ (.intConst 0) .int (by simp [Inst.operands])
    obtain ⟨hsound, hsince⟩ := hzero.ready.close (t := .ret σ.next) rfl rfl fun u hu =>
      List.mem_singleton.1 hu ▸ hzero.has
    exact ⟨hsound, hzero.advance.finish hsince⟩

/-! ## Whole functions -/

/-- What is lowered to a function: a definition, or the top-level statements of a unit. -/
inductive Routine where
  | definition (name : String) (parameters : List String) (body : Tree)
  | statements (name : String) (items : List Tree)

namespace Routine

/-- The name of the function. -/
def name : Routine → String
  | definition name _ _ | statements name _ => name

/-- The number of parameters. -/
def arity : Routine → Nat
  | definition _ parameters _ => parameters.length
  | statements _ _ => 0

end Routine

/-- The result of top-level statements is converted to an integer. -/
inductive Resulting (σ : Plan) : Option Value → Option Value → Plan → Prop
  | none : Resulting σ none none σ
  | some {v v' σ'} : Coerced σ v .int v' σ' → Resulting σ (some v) (some v') σ'

/-- Everything of a function is lowered but its end, where `symbols` are in scope. The truth value
tells whether a division of integers has been made. -/
inductive Body (config : FaultConfig) (symbols : SymbolTable) :
    Routine → Bool → Option Value → SymbolTable → Plan → Prop
  | definition {name parameters body σ symbols₁ σ₁ b r symbols₂ σ₂ symbols'} :
      Opens name parameters.length σ → Parameters parameters 0 symbols.pushScope σ symbols₁ σ₁ →
      Statements config (.all body.items) symbols₁ σ₁ b r symbols₂ σ₂ →
      symbols₂.popScope = .ok symbols' →
      Body config symbols (.definition name parameters body) b none symbols' σ₂
  | statements {name items σ b r symbols₁ σ₁ symbols' r' σ₂} :
      Opens name 0 σ → Statements config (.all items) symbols.pushScope σ b r symbols₁ σ₁ →
      symbols₁.popScope = .ok symbols' → Resulting σ₁ r r' σ₂ →
      Body config symbols (.statements name items) b r' symbols' σ₂

/-- A whole function is lowered. -/
inductive Made (config : FaultConfig) (symbols : SymbolTable) (routine : Routine) (b : Bool)
    (symbols' : SymbolTable) (σ' : Plan) : Prop
  | intro {r σ} : Body config symbols routine b r symbols' σ → Ended σ r σ' →
      Made config symbols routine b symbols' σ'

section

variable {config : FaultConfig} {symbols symbols' : SymbolTable} {routine : Routine} {b : Bool}
  {r : Option Value} {σ σ' : Plan}

theorem Resulting.gives {r' : Option Value} (h : Resulting σ r r' σ') (hσ : σ.Ready)
    (hr : ∀ v ∈ r, σ.Has σ.current v) :
    σ'.Ready ∧ Advance σ σ' ∧ ∀ v ∈ r', σ'.Has σ'.current v := by
  cases h with
  | none => exact ⟨hσ, .rfl' _, hr⟩
  | some hcoerced =>
    have h := hcoerced.gives hσ (hr _ rfl)
    refine ⟨h.ready, h.advance, ?_⟩
    rintro v ⟨⟩
    exact h.has

/-- A body leads from the entry to an open block, in which its result can be used. -/
theorem Body.advance (h : Body config symbols routine b r symbols' σ') :
    ∃ σ, Opens routine.name routine.arity σ ∧ σ'.Ready ∧ Advance σ σ' ∧
      ∀ v ∈ r, σ'.Has σ'.current v := by
  cases h with
  | definition hopens hparams hbody _ =>
    have hbegun := hopens.begun
    obtain ⟨hready₁, hadvance₁⟩ := hparams.advance hbegun.ready fun k hk => by
      rw [hbegun.current]
      exact hbegun.params k (by omega)
    obtain ⟨hready₂, hadvance₂, -⟩ := hbody.advance hready₁
    exact ⟨_, hopens, hready₂, hadvance₁.trans hadvance₂, by simp⟩
  | statements hopens hitems _ hresult =>
    obtain ⟨hready₁, hadvance₁, hr₁⟩ := hitems.advance hopens.begun.ready
    obtain ⟨hready₂, hadvance₂, hr₂⟩ := hresult.gives hready₁ hr₁
    exact ⟨_, hopens, hready₂, hadvance₁.trans hadvance₂, hr₂⟩

/-- A function that has been lowered has been grown from one without instructions. -/
theorem Made.extends' (h : Made config symbols routine b symbols' σ') :
    Extends (start routine.name (List.replicate routine.arity .int) .int) σ' := by
  obtain ⟨hbody, hended⟩ := h
  obtain ⟨σ₀, hopens, hready, hadvance, hr⟩ := hbody.advance
  exact hopens.extends'.trans (hadvance.since.extends'.trans (hended.since hready hr).2.extends')

/-- A function that has been lowered is in order, and all its blocks are finished. -/
theorem Made.closed (h : Made config symbols routine b symbols' σ') : σ'.Sound ∧ σ'.Closed := by
  obtain ⟨hbody, hended⟩ := h
  obtain ⟨σ₀, hopens, hready, hadvance, hr⟩ := hbody.advance
  obtain ⟨hsound, hsince⟩ := hended.since hready hr
  refine ⟨hsound, fun c hc => ?_⟩
  have hbegun := hopens.begun
  -- All blocks are the entry or have been made since it was sealed.
  have hown : σ₀.Own c := by
    rcases Nat.eq_zero_or_pos c.index with hzero | hpos
    · exact .inl (Flow.Block.ext_index (by rw [hbegun.current, hzero]; rfl))
    · exact .inr (by rw [hbegun.blockCount]; exact hpos)
  exact ((hadvance.finish hsince).settled hc hown).resolve_left (by simp)

/-- The graph of a function that has been lowered is well formed. -/
theorem Made.wellFormed (h : Made config symbols routine b symbols' σ') :
    σ'.builder.function.WellFormed := h.closed.1.wellFormed h.closed.2

end

end Plan

/-! ## What the lowering of a function does -/

open Plan

/-- The first of two computations that succeed has succeeded. -/
theorem except_bind_ok {ε α β : Type} {x : Except ε α} {f : α → Except ε β} {b : β}
    (h : (x >>= f) = .ok b) : ∃ a, x = .ok a ∧ f a = .ok b := by
  cases x with
  | error e => cases h
  | ok a => exact ⟨a, rfl, h⟩

/-- A result that something is known of is there. -/
theorem exists_ok_of_map {ε α β : Type} {x : Except ε α} {f : α → β} {b : β}
    (h : x.toOption.map f = some b) : ∃ a, x = .ok a ∧ f a = b := by
  cases x with
  | error e => cases h
  | ok a => exact ⟨a, rfl, Option.some.inj h⟩

/-- Two computations that go on differently agree if they agree on what they go on from. -/
theorem except_bind_congr {ε α β : Type} {x : Except ε α} {f g : α → Except ε β}
    (h : ∀ a, x = .ok a → f a = g a) : (x >>= f) = (x >>= g) := by
  cases x with
  | error e => rfl
  | ok a => exact h a rfl

theorem openFunction_ok {symbols : SymbolTable} {name : String} {arity : Nat} {s : State}
    (h : openFunction symbols name arity = .ok s) : ∃ id opened σ,
      symbols.define name (.function arity false) = .ok (id, opened) ∧ Opens name arity σ ∧
        s = ⟨opened, σ.record.draft, false⟩ := by
  obtain ⟨⟨id, opened⟩, hdefine, h⟩ := except_bind_ok h
  obtain ⟨⟨⟨⟩, after⟩, hseal, h⟩ := except_bind_ok h
  cases h
  have hleads : Lower.Leads (Lower.onDraft (Drafting.sealBlock Function.entry))
      (start name (List.replicate arity .int) .int)
      ⟨opened, ⟨Builder.start name (List.replicate arity .int) .int, Variables.empty⟩, false⟩
      fun _ σ' s' => Opens name arity σ' ∧ s' = ⟨opened, σ'.record.draft, false⟩ :=
    Lower.leads_onDraft (Drafting.leads_sealBlock Function.entry _) (by
      rintro ⟨⟩ _ ⟨d, hsealed, rfl⟩
      exact ⟨.intro hsealed, rfl⟩)
  obtain ⟨σ, -, hopens, hs⟩ := hleads rfl () _ hseal
  exact ⟨id, opened, σ, hdefine, hopens, hs⟩

namespace Lower

variable {σ : Plan} {s : State}

theorem leads_parameters (span : Span) (names : List String) (i : Nat)
    (hcurrent : σ.current = Function.entry) :
    Leads (parameters span names i) σ s fun _ σ' s' => ∃ symbols,
      Parameters names i s.symbols σ symbols σ' ∧
        s' = ⟨symbols, σ'.record.draft, s.mayFault⟩ := by
  induction names generalizing i σ s with
  | nil =>
    apply Leads.intro
    intro hdraft
    exact leads_pure ⟨s.symbols, .nil, by rw [← hdraft]⟩
  | cons name names ih =>
    apply Leads.bind ((leads_define name).located span)
    rintro x σ s ⟨symbols, hdefine, rfl, rfl⟩
    apply Leads.bind (leads_declare x .int)
    rintro ⟨⟩ _ _ ⟨rfl, rfl⟩
    have hwrite := Drafting.leads_write x ⟨i⟩ (σ.declare x .int)
    rw [show (σ.declare x .int).current = Function.entry from hcurrent] at hwrite
    have hstored : Leads (onDraft (Drafting.write x Function.entry ⟨i⟩)) (σ.declare x .int)
        ⟨symbols, (σ.declare x .int).record.draft, s.mayFault⟩ fun _ σ' s' =>
          σ' = (σ.declare x .int).write x ⟨i⟩ ∧ s' = ⟨symbols, σ'.record.draft, s.mayFault⟩ :=
      leads_onDraft hwrite fun _ _ h => ⟨h, rfl⟩
    apply Leads.bind hstored
    rintro ⟨⟩ _ _ ⟨rfl, rfl⟩
    apply Leads.mono (ih (i + 1)
      (show ((σ.declare x .int).write x ⟨i⟩).current = Function.entry from hcurrent))
    rintro ⟨⟩ σ' _ ⟨symbols', hparams, rfl⟩
    exact ⟨symbols', .cons hdefine hparams, rfl⟩

/-- The body of a definition is lowered in a scope of its own. -/
theorem leads_definition (config : FaultConfig) (span : Span) {name : String}
    {names : List String} (body : Tree) (hopens : Opens name names.length σ) :
    Leads (inScope do
      parameters span names 0
      items config body) σ s fun _ σ' s' => ∃ b,
        Plan.Body config s.symbols (.definition name names body) b none s'.symbols σ' ∧
          s' = ⟨s'.symbols, σ'.record.draft, s.mayFault || b⟩ := by
  have hbegun := hopens.begun
  apply Leads.inScope
  case mid =>
    exact fun _ σ' s' => ∃ symbols₁ σ₁ b r,
      Parameters names 0 s.symbols.pushScope σ symbols₁ σ₁ ∧
        Statements config (.all body.items) symbols₁ σ₁ b r s'.symbols σ' ∧
          s' = ⟨s'.symbols, σ'.record.draft, s.mayFault || b⟩
  case h =>
    apply Leads.bind (leads_parameters span names 0 hbegun.current)
    rintro ⟨⟩ σ₁ _ ⟨symbols₁, hparams, rfl⟩
    obtain ⟨hready₁, -⟩ := hparams.advance hbegun.ready fun k hk => by
      rw [hbegun.current]
      exact hbegun.params k (by omega)
    apply Leads.mono (leads_items config hready₁ _ body)
    rintro ⟨⟩ σ' _ ⟨b, r, symbols, hbody, rfl⟩
    exact ⟨symbols₁, σ₁, b, r, hparams, hbody, rfl⟩
  rintro ⟨⟩ σ' s' symbols' ⟨symbols₁, σ₁, b, r, hparams, hbody, hs'⟩ hpop
  refine ⟨b, .definition hopens hparams hbody hpop, ?_⟩
  rw [hs']

/-- So are the top-level statements of a unit. -/
theorem leads_topLevel (config : FaultConfig) (ts : List Tree) (hσ : σ.Ready) :
    Leads (inScope (statementsValue config ts)) σ s fun r σ' s' => ∃ b symbols,
      Statements config (.all ts) s.symbols.pushScope σ b r symbols σ' ∧
        symbols.popScope = .ok s'.symbols ∧
          s' = ⟨s'.symbols, σ'.record.draft, s.mayFault || b⟩ := by
  apply (leads_statementsValue config hσ _ ts).inScope
  rintro r σ' _ symbols' ⟨b, symbols, hitems, rfl⟩ hpop
  exact ⟨b, symbols, hitems, hpop, rfl⟩

end Lower

namespace Drafting

theorem leads_get (σ : Plan) : Leads get σ fun d σ' => d = σ.record.draft ∧ σ' = σ := by
  rintro d d' hrun
  cases hrun
  exact ⟨σ, rfl, rfl, rfl⟩

/-- The end of a body ends the block that is still open. -/
theorem leads_endBody {σ : Plan} (hσ : σ.Ready) (r : Option Value) :
    Leads (endBody r) σ fun _ σ' => Ended σ r σ' := by
  have hopen : ¬ σ.record.draft.builder.isTerminated σ.record.draft.builder.current = true := by
    show ¬ (σ.terminator? σ.current).isSome = true
    rw [hσ.isOpen]
    decide
  apply Leads.bind (leads_get σ)
  rintro _ _ ⟨rfl, rfl⟩
  rw [if_neg hopen]
  cases r with
  | some v =>
    apply Leads.bind (leads_pure v _)
    rintro _ _ ⟨rfl, rfl⟩
    apply Leads.mono (leads_terminate _ _)
    rintro ⟨⟩ _ rfl
    exact .value _
  | none =>
    apply Leads.bind (leads_emit _ _ _)
    rintro _ _ ⟨rfl, rfl⟩
    apply Leads.mono (leads_terminate _ _)
    rintro ⟨⟩ _ rfl
    exact .zero

end Drafting

/-! ## Closing -/

/-- The fault flag of a function stands with its name. -/
def Flagged (name : String) (arity : Nat) (mayFault : Bool) (symbols symbols' : SymbolTable) :
    Prop :=
  if mayFault then ∃ id, symbols.redefine name (.function arity true) = .ok (id, symbols')
  else symbols' = symbols

theorem finishDraft_verify {draft : Draft} (h : draft.builder.function.violation? = none)
    (verify : Bool) : finishDraft verify draft = finishDraft false draft := by
  unfold finishDraft
  cases draft.known.finish with
  | error e => rfl
  | ok u => cases verify <;> simp [h, bind, Except.bind]

theorem finishDraft_ok {verify : Bool} {draft : Draft} {f : Function}
    (h : finishDraft verify draft = .ok f) : f = draft.builder.function := by
  obtain ⟨⟨⟩, -, h⟩ := except_bind_ok h
  cases verify with
  | false =>
    cases h
    rfl
  | true =>
    cases hviolation : draft.builder.function.violation? with
    | some violation => simp [hviolation, throw, throwThe] at h
    | none =>
      simp only [hviolation, if_true] at h
      cases h
      rfl

section

variable {name : String} {arity : Nat} {r : Option Value} {s : State} {σ : Plan}
  (hdraft : s.draft = σ.record.draft) (hσ : σ.Ready)
include hdraft hσ

theorem onDraft_endBody {s' : State} {u : Unit}
    (h : Lower.onDraft (endBody r) s = .ok (u, s')) :
    ∃ σ', Ended σ r σ' ∧ s' = { s with draft := σ'.record.draft } := by
  have hleads : Lower.Leads (Lower.onDraft (endBody r)) σ s fun _ σ' s' =>
      Ended σ r σ' ∧ s' = { s with draft := σ'.record.draft } :=
    Lower.leads_onDraft (Drafting.leads_endBody hσ r) fun _ _ h => ⟨h, rfl⟩
  obtain ⟨σ', -, hpost⟩ := hleads hdraft u s' h
  exact ⟨σ', hpost⟩

/-- A function of which the verifier approves is closed with verification as without it. -/
theorem closeFunction_verify {fault : FaultConfig}
    (hended : ∀ σ', Ended σ r σ' → σ'.builder.function.violation? = none) (verify : Bool) :
    closeFunction ⟨fault, verify⟩ name arity r s = closeFunction ⟨fault, false⟩ name arity r s := by
  unfold closeFunction
  cases hend : Lower.onDraft (endBody r) s with
  | error e => rfl
  | ok result =>
    obtain ⟨σ', hσ', hs'⟩ := onDraft_endBody hdraft hσ hend
    have hfinish : finishDraft verify result.2.draft = finishDraft false result.2.draft := by
      rw [hs']
      exact finishDraft_verify (hended σ' hσ') verify
    simp only [bind, Except.bind, hfinish]

theorem closeFunction_ok {options : Options} {f : Function} {symbols : SymbolTable}
    (h : closeFunction options name arity r s = .ok (f, symbols)) : ∃ σ', Ended σ r σ' ∧
      f = σ'.builder.function ∧ Flagged name arity s.mayFault s.symbols symbols := by
  obtain ⟨⟨⟨⟩, s'⟩, hend, h⟩ := except_bind_ok h
  obtain ⟨σ', hσ', rfl⟩ := onDraft_endBody hdraft hσ hend
  obtain ⟨g, hfinish, h⟩ := except_bind_ok h
  have hg := finishDraft_ok hfinish
  unfold Flagged
  cases hflag : s.mayFault with
  | false =>
    simp only [hflag] at h
    cases h
    exact ⟨σ', hσ', hg, rfl⟩
  | true =>
    simp only [hflag, if_true] at h
    obtain ⟨⟨id, symbols'⟩, hredefine, h⟩ := except_bind_ok h
    cases h
    exact ⟨σ', hσ', hg, id, hredefine⟩

end

/-! ## Definitions and top-level statements -/

theorem locateError_eq_ok {α : Type} {span : Span} {x : Except LoweringError α} {a : α}
    (h : locateError span x = .ok a) : x = .ok a := by
  cases x with
  | error e => cases h
  | ok b => exact h

/-- A definition is lowered: its function and its export. -/
theorem lowerFunction_made {options : Options} {symbols symbols' : SymbolTable} {span : Span}
    {name : String} {names : List String} {body : Tree} {f : Function} {entry : Export}
    (h : lowerFunction options symbols span name names body = .ok (f, entry, symbols')) :
    ∃ id opened b closed σ, symbols.define name (.function names.length false) = .ok (id, opened) ∧
      Made options.fault opened (.definition name names body) b closed σ ∧
      f = σ.builder.function ∧ entry = ⟨name, names.length, b⟩ ∧
      Flagged name names.length b closed symbols' := by
  obtain ⟨start, hopen, h⟩ := except_bind_ok h
  obtain ⟨id, opened, σ, hdefine, hopens, rfl⟩ := openFunction_ok (locateError_eq_ok hopen)
  obtain ⟨⟨⟨⟩, s⟩, hbody, h⟩ := except_bind_ok h
  obtain ⟨σ₁, hdraft, b, hmade, hs⟩ :=
    Lower.leads_definition options.fault span body hopens rfl () s hbody
  obtain ⟨_, -, hready, -⟩ := hmade.advance
  obtain ⟨⟨g, symbols₁⟩, hclose, h⟩ := except_bind_ok h
  obtain ⟨σ', hended, hg, hflagged⟩ := closeFunction_ok hdraft hready (locateError_eq_ok hclose)
  have hflag : s.mayFault = b := by
    rw [hs]
    rfl
  cases h
  rw [hflag] at hflagged ⊢
  exact ⟨id, opened, b, s.symbols, σ', hdefine, .intro hmade hended, hg, rfl, hflagged⟩

/-- The value of top-level statements is converted to an integer, if there is one. -/
def integerResult (last? : Option Value) (s : State) : Except LoweringError (Option Value × State) :=
  match last? with
  | some v => do
    let (v, s) ← (Lower.coerce v .int) s
    pure (some v, s)
  | none => pure (none, s)

theorem lowerStatements_eq (options : Options) (symbols : SymbolTable) (name : String)
    (items : List Tree) : lowerStatements options symbols name items = (do
      let start ← locateError ((items.head?.map Tree.span).getD Span.none)
        (openFunction symbols name 0)
      let (last?, s) ← (Lower.inScope (Lower.statementsValue options.fault items)) start
      let (r, s) ← integerResult last? s
      let (f, _) ← closeFunction options name 0 r s
      return f) := by
  unfold lowerStatements
  refine bind_congr fun start => bind_congr fun result => ?_
  obtain ⟨last?, s⟩ := result
  cases last? with
  | none => rfl
  | some v =>
    simp only [integerResult, bind_assoc, pure_bind]

theorem integerResult_ok {last? r : Option Value} {s s' : State} {σ : Plan}
    (hdraft : s.draft = σ.record.draft) (h : integerResult last? s = .ok (r, s')) :
    ∃ σ', Resulting σ last? r σ' ∧ s' = { s with draft := σ'.record.draft } := by
  cases last? with
  | none =>
    cases h
    exact ⟨σ, .none, by rw [← hdraft]⟩
  | some v =>
    obtain ⟨⟨v', s₁⟩, hcoerce, h⟩ := except_bind_ok h
    obtain ⟨σ', -, hcoerced, hs⟩ := Lower.leads_coerce v .int hdraft v' s₁ hcoerce
    cases h
    exact ⟨σ', .some hcoerced, hs⟩

/-- Top-level statements are lowered to a function. -/
theorem lowerStatements_made {options : Options} {symbols : SymbolTable} {name : String}
    {items : List Tree} {f : Function}
    (h : lowerStatements options symbols name items = .ok f) :
    ∃ id opened b closed σ, symbols.define name (.function 0 false) = .ok (id, opened) ∧
      Made options.fault opened (.statements name items) b closed σ ∧
      f = σ.builder.function := by
  rw [lowerStatements_eq] at h
  obtain ⟨start, hopen, h⟩ := except_bind_ok h
  obtain ⟨id, opened, σ, hdefine, hopens, rfl⟩ := openFunction_ok (locateError_eq_ok hopen)
  obtain ⟨⟨last?, s⟩, hbody, h⟩ := except_bind_ok h
  obtain ⟨σ₁, hdraft, b, symbols₁, hitems, hpop, hs⟩ :=
    Lower.leads_topLevel options.fault items hopens.begun.ready rfl last? s hbody
  obtain ⟨⟨r, s'⟩, hresult, h⟩ := except_bind_ok h
  obtain ⟨σ₂, hresulting, rfl⟩ := integerResult_ok hdraft hresult
  have hmade : Body options.fault opened (.statements name items) b r s.symbols σ₂ :=
    .statements hopens hitems hpop hresulting
  obtain ⟨_, -, hready, -⟩ := hmade.advance
  obtain ⟨⟨g, symbols₂⟩, hclose, h⟩ := except_bind_ok h
  obtain ⟨σ', hended, hg, -⟩ := closeFunction_ok (σ := σ₂) rfl hready hclose
  cases h
  exact ⟨id, opened, b, s.symbols, σ', hdefine, .intro hmade hended, hg⟩

end Abacus.Lowering
