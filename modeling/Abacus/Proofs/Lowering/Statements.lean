import Abacus.Proofs.Lowering.Control

/-!
# How statements are lowered

`Plan.Statements` says, by the form of a statement, through which plans its lowering goes, and how the
names in scope change.

* `Lower.leads_statement` — the lowering of a statement does what the relation says;
* `Statements.advance` — a statement goes on from an open block to an open block.
-/

namespace Abacus.Lowering

open Abacus.Flow (Value Block Ty Inst Terminator Builder)

namespace Plan

/-- What is lowered: one statement, or several of them one after the other. -/
inductive StatementPart where
  | one (t : Tree)
  | all (ts : List Tree)

/-- The statements of the second body of a condition; none if there is no such body. -/
def elseItems : Option Tree → List Tree
  | some t => t.items
  | none => []

/-- The plan with the variable of a loop, which starts from 0. -/
def countFrom (σ : Plan) (x : SymbolId) : Plan :=
  ((σ.declare x .int).emit (.intConst 0) .int).write x σ.next

/-- Statements are lowered where `symbols` are in scope. The truth value tells whether a division
of integers has been made, and the value is that of the last statement that is an expression. -/
inductive Statements (config : FaultConfig) :
    StatementPart → SymbolTable → Plan → Bool → Option Value → SymbolTable → Plan → Prop
  | letVar {span name value symbols σ b v σ₁ x symbols'} :
      Values config symbols (.expr value) σ b [v] σ₁ →
      symbols.define name .var = .ok (x, symbols') →
      Statements config (.one (.node span (.letVar name value))) symbols σ b none symbols'
        ((σ₁.declare x (σ₁.builder.ty v)).write x v)
  | setVar {span name value symbols σ b v σ₁ x ty v' σ₂} :
      Values config symbols (.expr value) σ b [v] σ₁ → symbols.findVariable name = .ok x →
      σ₁.known.type? x = some ty → Coerced σ₁ v ty v' σ₂ →
      Statements config (.one (.node span (.setVar name value))) symbols σ b none symbols
        (σ₂.write x v')
  | giveBack {span value symbols σ b v σ₁ v' σ₂ σ'} :
      Values config symbols (.expr value) σ b [v] σ₁ → Coerced σ₁ v .int v' σ₂ →
      Returned σ₂ v' σ' →
      Statements config (.one (.node span (.giveBack value))) symbols σ b none symbols σ'
  | ifElse {span condition thenBody elseBody symbols σ b₁ v σ₁ test σ₂ σ₃ b₂ r₂ symbols₁ σ₄ symbols₂
      b₃ r₃ symbols₃ σ₅ symbols₄ σ'} : Values config symbols (.expr condition) σ b₁ [v] σ₁ →
      Tested σ₁ v test σ₂ → Split σ₂ test σ₃ →
      Statements config (.all thenBody.items) symbols.pushScope σ₃ b₂ r₂ symbols₁ σ₄ →
      symbols₁.popScope = .ok symbols₂ →
      Statements config (.all (elseItems elseBody)) symbols₂.pushScope (switch σ₂ σ₄) b₃ r₃
        symbols₃ σ₅ →
      symbols₃.popScope = .ok symbols₄ → Joined σ₂ σ₅ σ' →
      Statements config (.one (.node span (.ifElse condition thenBody elseBody))) symbols σ
        (b₁ || b₂ || b₃) none symbols₄ σ'
  | forLoop {span index bound body symbols σ b₁ v σ₁ limit σ₂ x symbols₁ σ₃ b₂ r symbols₂ σ₄ symbols₃
      σ' symbols₄} : Values config symbols (.expr bound) σ b₁ [v] σ₁ →
      Coerced σ₁ v .int limit σ₂ →
      symbols.pushScope.define index .var = .ok (x, symbols₁) →
      LoopHead (countFrom σ₂ x) x limit σ₃ →
      Statements config (.all body.items) symbols₁.pushScope σ₃ b₂ r symbols₂ σ₄ →
      symbols₂.popScope = .ok symbols₃ → LoopTail (countFrom σ₂ x) x σ₄ σ' →
      symbols₃.popScope = .ok symbols₄ →
      Statements config (.one (.node span (.forLoop index bound body))) symbols σ (b₁ || b₂) none
        symbols₄ σ'
  | expression {t symbols σ b v σ'} : Values config symbols (.expr t) σ b [v] σ' →
      Statements config (.one t) symbols σ b (some v) symbols σ'
  | nil {symbols σ} : Statements config (.all []) symbols σ false none symbols σ
  | cons {t ts symbols σ b₁ r₁ symbols₁ σ₁ b₂ r₂ symbols₂ σ₂} :
      Statements config (.one t) symbols σ b₁ r₁ symbols₁ σ₁ →
      Statements config (.all ts) symbols₁ σ₁ b₂ r₂ symbols₂ σ₂ →
      Statements config (.all (t :: ts)) symbols σ (b₁ || b₂) (r₂ <|> r₁) symbols₂ σ₂

/-- An expression gives one value. -/
theorem Values.givesOne {config : FaultConfig} {symbols : SymbolTable} {t : Tree} {σ σ' : Plan}
    {b : Bool} {v : Value} (h : Values config symbols (.expr t) σ b [v] σ') (hσ : σ.Ready) :
    Gives σ σ' v := by
  obtain ⟨hready, hadvance, hv⟩ := h.gives hσ
  exact ⟨hready, hadvance, hv v (by simp)⟩

theorem advance_introduce {σ : Plan} (hσ : σ.Ready) (x : SymbolId) (ty : Ty) {v : Value}
    (hv : σ.Has σ.current v) : ((σ.declare x ty).write x v).Ready ∧
      Advance σ ((σ.declare x ty).write x v) := by
  have hdeclare := hσ.declare x ty
  have hadvance := advance_declare hσ x ty
  have hv' := hadvance.has hσ.sound hv
  exact ⟨hdeclare.write x hv', hadvance.trans (advance_write hdeclare x v)⟩

theorem advance_countFrom {σ : Plan} (hσ : σ.Ready) (x : SymbolId) :
    (countFrom σ x).Ready ∧ Advance σ (countFrom σ x) := by
  have hdeclare := hσ.declare x .int
  have hzero := gives_emit hdeclare (.intConst 0) .int (by simp [Inst.operands])
  exact ⟨hzero.ready.write x hzero.has, (advance_declare hσ x .int).trans
    (hzero.advance.trans (advance_write hzero.ready x _))⟩

/-- Statements go on from an open block to an open block, in which their value can be used. -/
theorem Statements.advance {config : FaultConfig} {part : StatementPart}
    {symbols symbols' : SymbolTable} {σ σ' : Plan} {b : Bool} {r : Option Value}
    (h : Statements config part symbols σ b r symbols' σ') (hσ : σ.Ready) :
    σ'.Ready ∧ Advance σ σ' ∧ ∀ v ∈ r, σ'.Has σ'.current v := by
  induction h with
  | letVar hvalue _ =>
      have h := hvalue.givesOne hσ
      obtain ⟨hready, hadvance⟩ := advance_introduce h.ready _ _ h.has
      exact ⟨hready, h.advance.trans hadvance, by simp⟩
  | setVar hvalue _ _ hcoerced =>
      have h := hvalue.givesOne hσ
      have h' := hcoerced.gives h.ready h.has
      exact ⟨h'.ready.write _ h'.has,
        h.advance.trans (h'.advance.trans (advance_write h'.ready _ _)), by simp⟩
  | giveBack hvalue hcoerced hreturned =>
      have h := hvalue.givesOne hσ
      have h' := hcoerced.gives h.ready h.has
      obtain ⟨hready, hadvance⟩ := hreturned.advance h'.ready h'.has
      exact ⟨hready, h.advance.trans (h'.advance.trans hadvance), by simp⟩
  | ifElse hvalue htested hsplit _ _ _ _ hjoined ih₁ ih₂ =>
      have h := hvalue.givesOne hσ
      have h' := htested.gives h.ready h.has
      have hfirst := hsplit.firstBody h'.ready h'.has
      obtain ⟨hready₁, hadvance₁, -⟩ := ih₁ hfirst.ready
      have hsecond := hfirst.secondBody h'.ready hready₁ hadvance₁
      obtain ⟨hready₂, hadvance₂, -⟩ := ih₂ hsecond.ready
      have hspine : ∀ a ∈ _, a ∈ _ := fun a ha =>
        hadvance₁.spine a (hfirst.spine ▸ List.mem_cons_of_mem _ ha)
      obtain ⟨hready, hadvance, -⟩ :=
        hsecond.joined hready₁.sound hspine hready₂ hadvance₂ hjoined
      exact ⟨hready, h.advance.trans (h'.advance.trans hadvance), by simp⟩
  | forLoop hvalue hcoerced _ hhead _ _ htail _ ih =>
      have h := hvalue.givesOne hσ
      have h' := hcoerced.gives h.ready h.has
      obtain ⟨hready₁, hadvance₁⟩ := advance_countFrom h'.ready _
      have hbody := hhead.loopBody hready₁ (hadvance₁.has h'.ready.sound h'.has)
      obtain ⟨hready₂, hadvance₂, -⟩ := ih hbody.ready
      obtain ⟨hready, hadvance⟩ := hbody.tail hready₁ hready₂ hadvance₂ htail
      exact ⟨hready, h.advance.trans (h'.advance.trans (hadvance₁.trans hadvance)), by simp⟩
  | expression hvalue =>
      have h := hvalue.givesOne hσ
      exact ⟨h.ready, h.advance, by simpa using h.has⟩
  | nil => exact ⟨hσ, .rfl' _, by simp⟩
  | cons _ _ ih₁ ih₂ =>
      obtain ⟨hready₁, hadvance₁, hr₁⟩ := ih₁ hσ
      obtain ⟨hready₂, hadvance₂, hr₂⟩ := ih₂ hready₁
      refine ⟨hready₂, hadvance₁.trans hadvance₂, fun v hv => ?_⟩
      rcases (Option.orElse_eq_some _ _ _).1 hv with hv | ⟨-, hv⟩
      · exact hr₂ v hv
      · exact hadvance₂.has hready₁.sound (hr₁ v hv)

end Plan

namespace Drafting

open Plan

theorem leads_split (test : Value) (σ : Plan) : Leads (do
    let thenBlock ← newBlock "if.then"
    let elseBlock ← newBlock "if.else"
    let join ← newBlock "if.join"
    terminate (.branch test thenBlock elseBlock)
    sealBlock thenBlock
    sealBlock elseBlock
    setCurrent thenBlock
    return (elseBlock, join)) σ fun r σ' => r = (σ.block 1, σ.block 2) ∧ Split σ test σ' := by
  apply Leads.bind (leads_newBlock "if.then" _)
  rintro thenBlock _ ⟨rfl, rfl⟩
  apply Leads.bind (leads_newBlock "if.else" _)
  rintro elseBlock _ ⟨rfl, rfl⟩
  apply Leads.bind (leads_newBlock "if.join" _)
  rintro join _ ⟨rfl, rfl⟩
  rw [show (⟨(σ.newBlock "if.then").builder.blockCount⟩ : Block) = σ.block 1 from
    σ.block_newBlock "if.then" 0,
    show (⟨((σ.newBlock "if.then").newBlock "if.else").builder.blockCount⟩ : Block) = σ.block 2
      from ((σ.newBlock "if.then").block_newBlock "if.else" 0).trans (σ.block_newBlock "if.then" 1)]
  apply Leads.bind (leads_terminate _ _)
  rintro ⟨⟩ _ rfl
  apply leads_sealBoth
  rintro σ₁ fork
  apply Leads.bind (leads_setCurrent _ σ₁ (σ.spine σ.current))
  rintro ⟨⟩ _ rfl
  apply Leads.mono (leads_pure _ _)
  rintro r _ ⟨rfl, rfl⟩
  exact ⟨rfl, .intro fork⟩

theorem leads_loopHead (x : SymbolId) (limit : Value) (σ : Plan) : Leads (do
    let header ← newBlock "for.header"
    let bodyBlock ← newBlock "for.body"
    let bodyEnd ← newBlock "for.body_end"
    let exit ← newBlock "for.end"
    terminate (.jump header)
    setCurrent header
    let current ← read x header
    let inRange ← emit (.intCompare .less current limit) .bool
    terminate (.branch inRange bodyBlock exit)
    sealBlock bodyBlock
    setCurrent bodyBlock
    return (header, bodyEnd, exit)) σ fun r σ' =>
      r = (σ.block 0, σ.block 2, σ.block 3) ∧ LoopHead σ x limit σ' := by
  apply Leads.bind (leads_newBlock "for.header" _)
  rintro header _ ⟨rfl, rfl⟩
  apply Leads.bind (leads_newBlock "for.body" _)
  rintro bodyBlock _ ⟨rfl, rfl⟩
  apply Leads.bind (leads_newBlock "for.body_end" _)
  rintro bodyEnd _ ⟨rfl, rfl⟩
  apply Leads.bind (leads_newBlock "for.end" _)
  rintro exit _ ⟨rfl, rfl⟩
  have hblock₁ : (⟨(σ.newBlock "for.header").builder.blockCount⟩ : Block) = σ.block 1 :=
    σ.block_newBlock "for.header" 0
  have hblock₂ : (⟨((σ.newBlock "for.header").newBlock "for.body").builder.blockCount⟩ : Block) =
      σ.block 2 :=
    ((σ.newBlock "for.header").block_newBlock "for.body" 0).trans (σ.block_newBlock "for.header" 1)
  have hblock₃ : (⟨(((σ.newBlock "for.header").newBlock "for.body").newBlock
      "for.body_end").builder.blockCount⟩ : Block) = σ.block 3 :=
    (((σ.newBlock "for.header").newBlock "for.body").block_newBlock "for.body_end" 0).trans
      (((σ.newBlock "for.header").block_newBlock "for.body" 1).trans
        (σ.block_newBlock "for.header" 2))
  rw [hblock₁, hblock₂, hblock₃]
  apply Leads.bind (leads_terminate _ _)
  rintro ⟨⟩ _ rfl
  apply Leads.bind (leads_setCurrent _ _ (σ.spine σ.current))
  rintro ⟨⟩ σ₁ enter
  have hcurrent : σ₁.current = σ.block 0 := by
    rw [enter]
    rfl
  rw [show (⟨σ.builder.blockCount⟩ : Block) = σ₁.current from hcurrent.symm]
  apply Leads.bind (leads_read x σ₁)
  rintro v _ ⟨d, hread, rfl⟩
  apply Leads.bind (leads_emit _ _ _)
  rintro test σ₂ ⟨rfl, compare⟩
  apply Leads.bind (leads_terminate _ _)
  rintro ⟨⟩ _ rfl
  apply Leads.bind (leads_sealBlock _ _)
  rintro ⟨⟩ _ ⟨d', hsealed, rfl⟩
  apply Leads.bind (leads_setCurrent _ _ (σ.block 0 :: σ.spine σ.current))
  rintro ⟨⟩ _ rfl
  apply Leads.mono (leads_pure _ _)
  rintro r _ ⟨rfl, rfl⟩
  exact ⟨by rw [hcurrent], .intro enter hread compare hsealed⟩

theorem leads_loopTail (x : SymbolId) {σ σ₀ σ₁ : Plan} (hbody : LoopBody σ σ₀) (hready : σ₁.Ready)
    (hadvance : Advance σ₀ σ₁) : Leads (do
    sealBlock (σ.block 2)
    setCurrent (σ.block 2)
    let current ← read x (σ.block 2)
    let one ← emit (.intConst 1) .int
    let next ← emit (.intArith .add current one) .int
    terminate (.jump (σ.block 0))
    write x (σ.block 2) next
    sealBlock (σ.block 0)
    sealBlock (σ.block 3)
    setCurrent (σ.block 3)) (σ₁.terminate (.jump (σ.block 2))) fun _ σ' =>
      LoopTail σ x σ₁ σ' := by
  apply Leads.bind (leads_sealBlock _ _)
  rintro ⟨⟩ _ ⟨d, sealEnd, rfl⟩
  apply Leads.bind (leads_setCurrent _ _ (σ₁.spine σ₁.current))
  rintro ⟨⟩ σ₂ enter
  have hcurrent : σ₂.current = σ.block 2 := by
    rw [enter]
    rfl
  have hend : LoopEnd σ σ₁ σ₂ := enter ▸ hbody.loopEnd hready hadvance sealEnd
  have hread := leads_read x σ₂
  rw [hcurrent] at hread
  apply Leads.bind hread
  rintro v σ₂' ⟨d₂, hread, hσ₂⟩
  rw [← hcurrent] at hread
  apply Leads.bind (leads_emit _ _ _)
  rintro one σ₃ ⟨rfl, hone⟩
  apply Leads.bind (leads_emit _ _ _)
  rintro next σ₄ ⟨rfl, hnext⟩
  apply Leads.bind (leads_terminate _ _)
  rintro ⟨⟩ _ rfl
  -- The block has ended already, but is still the current one.
  have hcurrent₄ : (σ₄.terminate (.jump (σ.block 0))).current = σ.block 2 := by
    have hcurrent₂ := (hend.ready.sound.read hread).2.2.2
    rw [← hσ₂] at hcurrent₂
    rw [← hcurrent, ← hcurrent₂, hnext, hone]
    exact Builder.current_terminate ..
  have hwrite := leads_write x σ₃.next (σ₄.terminate (.jump (σ.block 0)))
  rw [hcurrent₄] at hwrite
  apply Leads.bind hwrite
  rintro ⟨⟩ σ₅ back
  apply Leads.bind (leads_sealBlock _ _)
  rintro ⟨⟩ _ ⟨d₃, sealHeader, rfl⟩
  apply Leads.bind (leads_sealBlock _ _)
  rintro ⟨⟩ _ ⟨d₄, sealExit, rfl⟩
  apply Leads.mono (leads_setCurrent _ _ (σ.block 0 :: σ.spine σ.current))
  rintro ⟨⟩ _ rfl
  rw [hσ₂] at hone hnext
  exact .intro sealEnd enter hread hone hnext back sealHeader sealExit

end Drafting

namespace Lower

open Plan

variable {σ : Plan} {s : State}

/-- A body that is lowered in a scope of its own does what the relation says. -/
def Body (config : FaultConfig) (ts : List Tree) (work : Lower Unit) : Prop :=
  ∀ σ s, σ.Ready → Leads work σ s fun _ σ' s' => ∃ b r symbols symbols',
    Statements config (.all ts) s.symbols.pushScope σ b r symbols σ' ∧
      symbols.popScope = .ok symbols' ∧ s' = ⟨symbols', σ'.record.draft, s.mayFault || b⟩

theorem leads_define (name : String) : Leads (define name .var) σ s fun x σ' s' =>
    ∃ symbols, s.symbols.define name .var = .ok (x, symbols) ∧ σ' = σ ∧ s' = { s with symbols } :=
  leads_onSymbols fun _ symbols h => ⟨symbols, h, rfl, rfl⟩

theorem leads_declare (x : SymbolId) (ty : Ty) :
    Leads (onDraft (Drafting.declare x ty)) σ s fun _ σ' s' =>
      σ' = σ.declare x ty ∧ s' = { s with draft := σ'.record.draft } :=
  leads_onDraft (Drafting.leads_declare x ty σ) fun _ _ h => ⟨h, rfl⟩

theorem leads_writeHere (x : SymbolId) (v : Value) : Leads (writeHere x v) σ s fun _ σ' s' =>
    σ' = σ.write x v ∧ s' = { s with draft := σ'.record.draft } := by
  have hwrite : Drafting.Leads (do Drafting.write x (← Drafting.currentBlock) v) σ fun _ σ' =>
      σ' = σ.write x v := by
    apply Drafting.Leads.bind (Drafting.leads_currentBlock σ)
    rintro b _ ⟨rfl, rfl⟩
    exact Drafting.leads_write x v _
  exact leads_onDraft hwrite fun _ _ h => ⟨h, rfl⟩

theorem leads_introduce (name : String) (ty : Ty) (v : Value) :
    Leads (introduce name ty v) σ s fun x σ' s' => ∃ symbols,
      s.symbols.define name .var = .ok (x, symbols) ∧ σ' = (σ.declare x ty).write x v ∧
        s' = ⟨symbols, σ'.record.draft, s.mayFault⟩ := by
  apply Leads.bind (leads_define name)
  rintro x σ s ⟨symbols, hdefine, rfl, rfl⟩
  apply Leads.bind (leads_declare x ty)
  rintro ⟨⟩ _ _ ⟨rfl, rfl⟩
  apply Leads.bind (leads_writeHere x v)
  rintro ⟨⟩ _ _ ⟨rfl, rfl⟩
  exact leads_pure ⟨symbols, hdefine, rfl, rfl⟩

theorem leads_assign (name : String) (v : Value) : Leads (assign name v) σ s fun _ σ' s' =>
    ∃ x ty v' σ₁, s.symbols.findVariable name = .ok x ∧ σ.known.type? x = some ty ∧
      Coerced σ v ty v' σ₁ ∧ σ' = σ₁.write x v' ∧ s' = { s with draft := σ'.record.draft } := by
  apply Leads.bind
  case mid => exact fun x σ' s' => s.symbols.findVariable name = .ok x ∧ σ' = σ ∧ s' = s
  · exact leads_variableOf fun x h => ⟨h, rfl, rfl⟩
  rintro x σ s ⟨hfind, rfl, rfl⟩
  apply Leads.intro
  intro hdraft
  have hget : Leads (get : Lower State) σ s fun found σ' s' => found = s ∧ σ' = σ ∧ s' = s :=
    fun _ _ _ hrun => by
      cases hrun
      exact ⟨σ, hdraft, rfl, rfl, rfl⟩
  apply Leads.bind hget
  rintro _ _ _ ⟨rfl, rfl, rfl⟩
  split
  · exact leads_throw _
  · next ty hty =>
    apply Leads.bind (leads_coerce v ty)
    rintro v' σ₁ _ ⟨hcoerced, rfl⟩
    apply Leads.mono (leads_writeHere x v')
    rintro ⟨⟩ _ _ ⟨rfl, rfl⟩
    rw [hdraft] at hty
    exact ⟨x, ty, v', σ₁, hfind, hty, hcoerced, rfl, rfl⟩

theorem leads_giveBack (v : Value) : Leads (giveBack v) σ s fun _ σ' s' =>
    Returned σ v σ' ∧ s' = { s with draft := σ'.record.draft } := by
  apply leads_onDraft
  case mid => exact fun _ σ' => Returned σ v σ'
  case himp => exact fun _ _ h => ⟨h, rfl⟩
  apply Drafting.Leads.bind (Drafting.leads_terminate _ σ)
  rintro ⟨⟩ _ rfl
  apply Drafting.Leads.bind (Drafting.leads_newBlock _ _)
  rintro dead _ ⟨hdead, rfl⟩
  apply Drafting.Leads.bind (Drafting.leads_setCurrent dead _ (σ.spine σ.current))
  rintro ⟨⟩ σ₁ hσ₁
  apply Drafting.Leads.mono (Drafting.leads_sealBlock dead σ₁)
  rintro ⟨⟩ _ ⟨d, hsealed, rfl⟩
  exact .intro hdead hσ₁ hsealed

theorem leads_jumpTo (c : Block) : Leads (jumpTo c) σ s fun _ σ' s' =>
    σ' = σ.terminate (.jump c) ∧ s' = { s with draft := σ'.record.draft } :=
  leads_onDraft (Drafting.leads_terminate _ σ) fun _ _ h => ⟨h, rfl⟩

/-- A condition does what the relation says if its bodies do. -/
theorem leads_ifElse {config : FaultConfig} {span : Span} {condition thenTree : Tree}
    {elseTree : Option Tree} {thenBody elseBody : Lower Unit} {σ₀ : Plan} {s₀ : State} {b : Bool}
    {v : Value} (hvalue : Values config s₀.symbols (.expr condition) σ₀ b [v] σ)
    (hs : s = ⟨s₀.symbols, σ.record.draft, s₀.mayFault || b⟩)
    (hv : Gives σ₀ σ v) (hthen : Body config thenTree.items thenBody)
    (helse : Body config (elseItems elseTree) elseBody) :
    Leads (ifElse v thenBody elseBody) σ s fun _ σ' s' => ∃ b symbols,
      Statements config (.one (.node span (.ifElse condition thenTree elseTree))) s₀.symbols σ₀ b none
        symbols σ' ∧ s' = ⟨symbols, σ'.record.draft, s₀.mayFault || b⟩ := by
  subst hs
  apply Leads.bind (leads_truthy v)
  rintro test σ₂ s₂ ⟨htested, rfl⟩
  apply Leads.bind
  case mid => exact fun r σ' s' => r = (σ₂.block 1, σ₂.block 2) ∧ Split σ₂ test σ' ∧
    s' = ⟨s₀.symbols, σ'.record.draft, s₀.mayFault || b⟩
  case h => exact leads_onDraft (Drafting.leads_split test σ₂) fun _ _ h => ⟨h.1, h.2, rfl⟩
  rintro ⟨elseBlock, join⟩ σ₃ s₃ ⟨hblocks, hsplit, rfl⟩
  cases hblocks
  have htest := htested.gives hv.ready hv.has
  have hbody₁ := hsplit.firstBody htest.ready htest.has
  apply Leads.bind (hthen _ _ hbody₁.ready)
  rintro ⟨⟩ σ₄ _ ⟨b₂, r₂, symbols₁, symbols₂, hfirst, hpop₁, rfl⟩
  obtain ⟨hready₁, hadvance₁, -⟩ := hfirst.advance hbody₁.ready
  have hbody₂ := hbody₁.secondBody htest.ready hready₁ hadvance₁
  apply Leads.bind (leads_jumpTo _)
  rintro ⟨⟩ _ _ ⟨rfl, rfl⟩
  have henter : Leads (onDraft (Drafting.setCurrent (σ₂.block 1))) (σ₄.terminate (.jump (σ₂.block 2)))
      ⟨symbols₂, (σ₄.terminate (.jump (σ₂.block 2))).record.draft, s₀.mayFault || b || b₂⟩ fun _ σ' s' =>
        σ' = switch σ₂ σ₄ ∧ s' = ⟨symbols₂, σ'.record.draft, s₀.mayFault || b || b₂⟩ :=
    leads_onDraft (Drafting.leads_setCurrent _ _ (σ₂.spine σ₂.current)) fun _ _ h => ⟨h, rfl⟩
  apply Leads.bind henter
  rintro ⟨⟩ _ _ ⟨rfl, rfl⟩
  apply Leads.bind (helse _ _ hbody₂.ready)
  rintro ⟨⟩ σ₅ _ ⟨b₃, r₃, symbols₃, symbols₄, hsecond, hpop₂, rfl⟩
  apply Leads.bind (leads_jumpTo _)
  rintro ⟨⟩ _ _ ⟨rfl, rfl⟩
  apply leads_onDraft
  case mid => exact fun _ σ' => Joined σ₂ σ₅ σ'
  case himp =>
    intro _ σ' hjoined
    refine ⟨b || b₂ || b₃, symbols₄,
      .ifElse hvalue htested hsplit hfirst hpop₁ hsecond hpop₂ hjoined, ?_⟩
    simp [Bool.or_assoc]
  apply Drafting.Leads.bind (Drafting.leads_sealBlock _ _)
  rintro ⟨⟩ _ ⟨d, hsealed, rfl⟩
  apply Drafting.Leads.mono (Drafting.leads_setCurrent _ _ (σ₂.spine σ₂.current))
  rintro ⟨⟩ _ rfl
  exact .intro hsealed

/-- A loop does what the relation says if its body does. -/
theorem leads_forLoop {config : FaultConfig} {span : Span} {index : String} {bound bodyTree : Tree}
    {body : Lower Unit} {σ₀ σ₁ : Plan} {s₀ : State} {b : Bool} {v limit : Value}
    (hvalue : Values config s₀.symbols (.expr bound) σ₀ b [v] σ₁)
    (hlimit : Coerced σ₁ v .int limit σ) (hs : s = ⟨s₀.symbols, σ.record.draft, s₀.mayFault || b⟩)
    (hv : Gives σ₁ σ limit) (hbody : Body config bodyTree.items body) :
    Leads (forLoop index limit body) σ s fun _ σ' s' => ∃ b symbols,
      Statements config (.one (.node span (.forLoop index bound bodyTree))) s₀.symbols σ₀ b none
        symbols σ' ∧ s' = ⟨symbols, σ'.record.draft, s₀.mayFault || b⟩ := by
  subst hs
  apply Leads.inScope
  case mid =>
    exact fun _ σ' s' => ∃ b₂ symbols, s' = ⟨symbols, σ'.record.draft, s₀.mayFault || b || b₂⟩ ∧
      ∀ symbols', symbols.popScope = .ok symbols' →
        Statements config (.one (.node span (.forLoop index bound bodyTree))) s₀.symbols σ₀
          (b || b₂) none symbols' σ'
  case himp =>
    rintro _ σ' _ symbols' ⟨b₂, symbols, rfl, hstatements⟩ hpop
    exact ⟨b || b₂, symbols', hstatements symbols' hpop, by simp [Bool.or_assoc]⟩
  apply Leads.bind (leads_define index)
  rintro x σ s ⟨symbols₁, hdefine, rfl, rfl⟩
  apply Leads.bind (leads_declare x .int)
  rintro ⟨⟩ _ _ ⟨rfl, rfl⟩
  apply Leads.bind (leads_emit _ _)
  rintro zero _ _ ⟨rfl, rfl, rfl⟩
  apply Leads.bind (leads_writeHere x _)
  rintro ⟨⟩ σ₂ _ ⟨hσ₂, rfl⟩
  obtain rfl : σ₂ = countFrom σ x := hσ₂
  obtain ⟨hready, hadvance⟩ := advance_countFrom hv.ready x
  apply Leads.bind
  case mid => exact fun r σ' s' =>
    r = ((countFrom σ x).block 0, (countFrom σ x).block 2, (countFrom σ x).block 3) ∧
      LoopHead (countFrom σ x) x limit σ' ∧ s' = ⟨symbols₁, σ'.record.draft, s₀.mayFault || b⟩
  case h => exact leads_onDraft (Drafting.leads_loopHead x limit _) fun _ _ h => ⟨h.1, h.2, rfl⟩
  rintro ⟨header, bodyEnd, exit⟩ σ₃ _ ⟨hblocks, hhead, rfl⟩
  cases hblocks
  have hopen := hhead.loopBody hready (hadvance.has hv.ready.sound hv.has)
  apply Leads.bind (hbody _ _ hopen.ready)
  rintro ⟨⟩ σ₄ _ ⟨b₂, r₂, symbols₂, symbols₃, hitems, hpop₂, rfl⟩
  obtain ⟨hready₄, hadvance₄, -⟩ := hitems.advance hopen.ready
  apply Leads.bind (leads_jumpTo _)
  rintro ⟨⟩ _ _ ⟨rfl, rfl⟩
  refine leads_onDraft (Drafting.leads_loopTail x hopen hready₄ hadvance₄) fun _ σ' htail => ?_
  exact ⟨b₂, symbols₃, rfl, fun symbols' hpop₃ =>
    .forLoop hvalue hlimit hdefine hhead hitems hpop₂ htail hpop₃⟩

/-- Lowering in a scope of its own is lowering with one scope more. -/
theorem body_inScope {config : FaultConfig} {ts : List Tree} {work : Lower Unit}
    (h : ∀ σ s, σ.Ready → Leads work σ s fun _ σ' s' => ∃ b r symbols,
      Statements config (.all ts) s.symbols σ b r symbols σ' ∧
        s' = ⟨symbols, σ'.record.draft, s.mayFault || b⟩) : Body config ts (inScope work) := by
  intro σ s hσ
  apply (h σ _ hσ).inScope
  rintro ⟨⟩ σ' _ symbols' ⟨b, r, symbols, hitems, rfl⟩ hpop
  exact ⟨b, r, symbols, symbols', hitems, hpop, rfl⟩

theorem body_nothing (config : FaultConfig) : Body config [] (return ()) := by
  intro σ s _
  apply Leads.intro
  intro hdraft
  refine leads_pure ⟨false, none, _, s.symbols, .nil, SymbolTable.popScope_pushScope _, ?_⟩
  rw [Bool.or_false, ← hdraft]

theorem leads_evaluated {config : FaultConfig} {t : Tree} (span : Span)
    (h : Leads (expression config t) σ s fun v σ' s' => ∃ b,
      Values config s.symbols (.expr t) σ b [v] σ' ∧
        s' = ⟨s.symbols, σ'.record.draft, s.mayFault || b⟩) :
    Leads (located span do return some (← expression config t)) σ s fun r σ' s' => ∃ b symbols,
      Statements config (.one t) s.symbols σ b r symbols σ' ∧
        s' = ⟨symbols, σ'.record.draft, s.mayFault || b⟩ := by
  apply Leads.located
  apply Leads.bind h
  rintro v σ' _ ⟨b, hvalue, rfl⟩
  exact leads_pure ⟨b, s.symbols, .expression hvalue, rfl⟩

mutual

/-- The lowering of a statement does what the relation says. -/
theorem leads_statement (config : FaultConfig) {σ : Plan} (hσ : σ.Ready) (s : State) : ∀ t : Tree,
    Leads (statement config t) σ s fun r σ' s' => ∃ b symbols,
      Statements config (.one t) s.symbols σ b r symbols σ' ∧
        s' = ⟨symbols, σ'.record.draft, s.mayFault || b⟩
  | .node span (.letVar name value) => by
    apply Leads.located
    apply Leads.bind (leads_expression config σ s value)
    rintro v σ₁ _ ⟨b, hvalue, rfl⟩
    apply Leads.bind (leads_typeOf v)
    rintro ty _ _ ⟨rfl, rfl, rfl⟩
    apply Leads.bind (leads_introduce name _ v)
    rintro x _ _ ⟨symbols, hdefine, rfl, rfl⟩
    exact leads_pure ⟨b, symbols, .letVar hvalue hdefine, rfl⟩
  | .node span (.setVar name value) => by
    apply Leads.located
    apply Leads.bind (leads_expression config σ s value)
    rintro v σ₁ _ ⟨b, hvalue, rfl⟩
    apply Leads.bind (leads_assign name v)
    rintro ⟨⟩ _ _ ⟨x, ty, v', σ₂, hfind, hty, hcoerced, rfl, rfl⟩
    exact leads_pure ⟨b, s.symbols, .setVar hvalue hfind hty hcoerced, rfl⟩
  | .node span (.giveBack value) => by
    apply Leads.located
    apply Leads.bind (leads_expression config σ s value)
    rintro v σ₁ _ ⟨b, hvalue, rfl⟩
    apply Leads.bind (leads_coerce v .int)
    rintro v' σ₂ _ ⟨hcoerced, rfl⟩
    apply Leads.bind (leads_giveBack v')
    rintro ⟨⟩ σ' _ ⟨hreturned, rfl⟩
    exact leads_pure ⟨b, s.symbols, .giveBack hvalue hcoerced hreturned, rfl⟩
  | .node span (.ifElse condition thenBody none) => by
    apply Leads.located
    apply Leads.bind (leads_expression config σ s condition)
    rintro v σ₁ _ ⟨b, hvalue, rfl⟩
    have hthen := body_inScope fun σ s (hσ : σ.Ready) => leads_items config hσ s thenBody
    have helse : Body config (elseItems none) (return ()) := body_nothing config
    apply Leads.bind (leads_ifElse hvalue rfl (hvalue.givesOne hσ) hthen helse)
    rintro ⟨⟩ σ' _ ⟨b', symbols, hstatement, rfl⟩
    exact leads_pure ⟨b', symbols, hstatement, rfl⟩
  | .node span (.ifElse condition thenBody (some elseBody)) => by
    apply Leads.located
    apply Leads.bind (leads_expression config σ s condition)
    rintro v σ₁ _ ⟨b, hvalue, rfl⟩
    have hthen := body_inScope fun σ s (hσ : σ.Ready) => leads_items config hσ s thenBody
    have helse : Body config (elseItems (some elseBody)) (inScope (items config elseBody)) :=
      body_inScope fun σ s hσ => leads_items config hσ s elseBody
    apply Leads.bind (leads_ifElse hvalue rfl (hvalue.givesOne hσ) hthen helse)
    rintro ⟨⟩ σ' _ ⟨b', symbols, hstatement, rfl⟩
    exact leads_pure ⟨b', symbols, hstatement, rfl⟩
  | .node span (.forLoop index bound body) => by
    apply Leads.located
    apply Leads.bind (leads_expression config σ s bound)
    rintro v σ₁ _ ⟨b, hvalue, rfl⟩
    apply Leads.bind (leads_coerce v .int)
    rintro limit σ₂ _ ⟨hcoerced, rfl⟩
    have h := hvalue.givesOne hσ
    apply Leads.bind (leads_forLoop hvalue hcoerced rfl (hcoerced.gives h.ready h.has)
      (body_inScope fun σ s hσ => leads_items config hσ s body))
    rintro ⟨⟩ σ' _ ⟨b', symbols, hstatement, rfl⟩
    exact leads_pure ⟨b', symbols, hstatement, rfl⟩
  | .node span (.fnDef ..) | .node span (.program _) | .node span (.list _) =>
    (leads_throw _).located span
  | .node span (.integer n) =>
    leads_evaluated span (leads_expression config σ s (.node span (.integer n)))
  | .node span (.floating x) =>
    leads_evaluated span (leads_expression config σ s (.node span (.floating x)))
  | .node span (.ident name) =>
    leads_evaluated span (leads_expression config σ s (.node span (.ident name)))
  | .node span (.infixOp op left right) =>
    leads_evaluated span (leads_expression config σ s (.node span (.infixOp op left right)))
  | .node span (.negate operand) =>
    leads_evaluated span (leads_expression config σ s (.node span (.negate operand)))
  | .node span (.call name arguments) =>
    leads_evaluated span (leads_expression config σ s (.node span (.call name arguments)))
termination_by structural t => t

theorem leads_items (config : FaultConfig) {σ : Plan} (hσ : σ.Ready) (s : State) : ∀ t : Tree,
    Leads (items config t) σ s fun _ σ' s' => ∃ b r symbols,
      Statements config (.all t.items) s.symbols σ b r symbols σ' ∧
        s' = ⟨symbols, σ'.record.draft, s.mayFault || b⟩
  | .node _ (.program items) => leads_statements config hσ s items
  | .node _ (.list items) => leads_statements config hσ s items
  | .node _ (.integer _) | .node _ (.floating _) | .node _ (.ident _) | .node _ (.infixOp ..)
  | .node _ (.negate _) | .node _ (.call ..) | .node _ (.letVar ..) | .node _ (.setVar ..)
  | .node _ (.ifElse ..) | .node _ (.forLoop ..) | .node _ (.giveBack _) | .node _ (.fnDef ..) => by
    apply Leads.intro
    intro hdraft
    exact leads_pure ⟨false, none, s.symbols, .nil, by rw [Bool.or_false, ← hdraft]⟩
termination_by structural t => t

theorem leads_statements (config : FaultConfig) {σ : Plan} (hσ : σ.Ready) (s : State) :
    ∀ ts : List Tree, Leads (statements config ts) σ s fun _ σ' s' => ∃ b r symbols,
      Statements config (.all ts) s.symbols σ b r symbols σ' ∧
        s' = ⟨symbols, σ'.record.draft, s.mayFault || b⟩
  | [] => by
    apply Leads.intro
    intro hdraft
    exact leads_pure ⟨false, none, s.symbols, .nil, by rw [Bool.or_false, ← hdraft]⟩
  | first :: rest => by
    apply Leads.bind (leads_statement config hσ s first)
    rintro r₁ σ₁ _ ⟨b₁, symbols₁, hfirst, rfl⟩
    apply Leads.mono (leads_statements config (hfirst.advance hσ).1 _ rest)
    rintro ⟨⟩ σ' _ ⟨b₂, r₂, symbols', hrest, rfl⟩
    exact ⟨b₁ || b₂, r₂ <|> r₁, symbols', .cons hfirst hrest, by rw [Bool.or_assoc]⟩
termination_by structural ts => ts

end

/-- The value of the last expression is that of the relation. -/
theorem leads_statementsValue (config : FaultConfig) {σ : Plan} (hσ : σ.Ready) (s : State)
    (ts : List Tree) : Leads (statementsValue config ts) σ s fun r σ' s' => ∃ b symbols,
      Statements config (.all ts) s.symbols σ b r symbols σ' ∧
        s' = ⟨symbols, σ'.record.draft, s.mayFault || b⟩ := by
  induction ts generalizing σ s with
  | nil =>
      apply Leads.intro
      intro hdraft
      exact leads_pure ⟨false, s.symbols, .nil, by rw [Bool.or_false, ← hdraft]⟩
  | cons first rest ih =>
      apply Leads.bind (leads_statement config hσ s first)
      rintro r₁ σ₁ _ ⟨b₁, symbols₁, hfirst, rfl⟩
      apply Leads.bind (ih (hfirst.advance hσ).1 _)
      rintro r₂ σ' _ ⟨b₂, symbols', hrest, rfl⟩
      exact leads_pure ⟨b₁ || b₂, symbols', .cons hfirst hrest, by rw [Bool.or_assoc]⟩

end Lower

end Abacus.Lowering
