import Abacus.Proofs.Lowering.Calls

/-!
# How expressions are lowered

`Plan.Values` says, by the form of an expression, through which plans its lowering goes and which
value it gives. It is a relation of its own, so that what holds of all expressions can be proved by
induction on it.

* `Lower.leads_expression` — the lowering of an expression does what the relation says;
* `Values.gives` — the values can be used from then on.
-/

namespace Abacus.Lowering

open Abacus.Flow (Value Block Ty Inst Terminator Builder)

namespace Plan

/-- What values are made for: an expression, or the arguments of a call. -/
inductive ValuePart where
  | expr (t : Tree)
  | args (ts : List Tree)

/-- A function is called. The truth value tells whether the call has a handler. -/
inductive Called (config : FaultConfig) (σ : Plan) (name : String) (arguments : List Value) :
    Bool → Value → Plan → Prop
  | plain : Called config σ name arguments false σ.next (σ.emit (.call name arguments) .int)
  | handled {v σ'} : Invoked config σ name arguments v σ' →
      Called config σ name arguments true v σ'

/-- Expressions are lowered where `symbols` are in scope. The truth value tells whether a division
of integers has been made. -/
inductive Values (config : FaultConfig) (symbols : SymbolTable) :
    ValuePart → Plan → Bool → List Value → Plan → Prop
  | integer {span n σ} : Values config symbols (.expr (.node span (.integer n))) σ false [σ.next]
      (σ.emit (.intConst n) .int)
  | floating {span x σ} : Values config symbols (.expr (.node span (.floating x))) σ false [σ.next]
      (σ.emit (.floatConst x) .float)
  | ident {span name x σ v d} (find : symbols.findVariable name = .ok x)
      (read : (Drafting.read x σ.current).on σ.record.draft = (.ok v, d)) :
      Values config symbols (.expr (.node span (.ident name))) σ false [v] (σ.read x v d)
  | infixOp {span op left right σ b₁ l σ₁ b₂ r σ₂ b₃ v σ'} :
      Values config symbols (.expr left) σ b₁ [l] σ₁ →
      Values config symbols (.expr right) σ₁ b₂ [r] σ₂ → Combined config σ₂ op l r b₃ v σ' →
      Values config symbols (.expr (.node span (.infixOp op left right))) σ (b₁ || b₂ || b₃) [v] σ'
  | negate {span operand σ b v σ₁ v' σ'} : Values config symbols (.expr operand) σ b [v] σ₁ →
      Negated σ₁ v v' σ' → Values config symbols (.expr (.node span (.negate operand))) σ b [v'] σ'
  | pi {span name arguments σ} (named : name = piName) (free : symbols.lookup? piName = none)
      (count : arguments.items.length = 0) :
      Values config symbols (.expr (.node span (.call name arguments))) σ false [σ.next]
        (σ.emit (.floatConst piValue) .float)
  | call {span name arguments σ id arity handled b vs σ₁ v σ'}
      (find : symbols.findFunction name = .ok (id, arity, handled))
      (count : arguments.items.length = arity) :
      Values config symbols (.args arguments.items) σ b vs σ₁ →
      Called config σ₁ name vs handled v σ' →
      Values config symbols (.expr (.node span (.call name arguments))) σ b [v] σ'
  | nil {σ} : Values config symbols (.args []) σ false [] σ
  | cons {t ts σ b₁ v σ₁ v' σ₂ b₂ vs σ'} : Values config symbols (.expr t) σ b₁ [v] σ₁ →
      Coerced σ₁ v .int v' σ₂ → Values config symbols (.args ts) σ₂ b₂ vs σ' →
      Values config symbols (.args (t :: ts)) σ (b₁ || b₂) (v' :: vs) σ'

theorem Called.gives {config : FaultConfig} {σ σ' : Plan} {name : String}
    {arguments : List Value} {handled : Bool} {v : Value}
    (h : Called config σ name arguments handled v σ') (hσ : σ.Ready)
    (harguments : ∀ u ∈ arguments, σ.Has σ.current u) : Gives σ σ' v := by
  cases h with
  | plain => exact gives_emit hσ _ _ harguments
  | handled h => exact h.gives hσ harguments

theorem gives_read {σ : Plan} (hσ : σ.Ready) {x : SymbolId} {v : Value} {d : Draft}
    (hread : (Drafting.read x σ.current).on σ.record.draft = (.ok v, d)) :
    Gives σ (σ.read x v d) v := by
  obtain ⟨-, -, hv, hcurrent⟩ := hσ.sound.read hread
  exact ⟨hσ.read hread, advance_read hσ.sound hread, hcurrent ▸ hv⟩

/-- All values of a part can be used after it. -/
theorem Values.gives {config : FaultConfig} {symbols : SymbolTable} {part : ValuePart}
    {σ σ' : Plan} {b : Bool} {vs : List Value} (h : Values config symbols part σ b vs σ')
    (hσ : σ.Ready) : σ'.Ready ∧ Advance σ σ' ∧ ∀ v ∈ vs, σ'.Has σ'.current v := by
  have hone : ∀ {σ σ' : Plan} {v : Value}, Gives σ σ' v →
      σ'.Ready ∧ Advance σ σ' ∧ ∀ u ∈ [v], σ'.Has σ'.current u := by
    intro σ σ' v h
    exact ⟨h.ready, h.advance, fun u hu => List.mem_singleton.1 hu ▸ h.has⟩
  induction h with
  | integer => exact hone (gives_emit hσ _ _ (by simp [Inst.operands]))
  | floating => exact hone (gives_emit hσ _ _ (by simp [Inst.operands]))
  | ident _ hread => exact hone (gives_read hσ hread)
  | infixOp _ _ hcombined ih₁ ih₂ =>
      obtain ⟨hready₁, hadvance₁, hl⟩ := ih₁ hσ
      obtain ⟨hready₂, hadvance₂, hr⟩ := ih₂ hready₁
      have h := hcombined.gives hready₂ (hadvance₂.has hready₁.sound (hl _ (by simp)))
        (hr _ (by simp))
      exact hone ⟨h.ready, hadvance₁.trans (hadvance₂.trans h.advance), h.has⟩
  | negate _ hnegated ih =>
      obtain ⟨hready, hadvance, hv⟩ := ih hσ
      have h := hnegated.gives hready (hv _ (by simp))
      exact hone ⟨h.ready, hadvance.trans h.advance, h.has⟩
  | pi => exact hone (gives_emit hσ _ _ (by simp [Inst.operands]))
  | call _ _ _ hcalled ih =>
      obtain ⟨hready, hadvance, hvs⟩ := ih hσ
      have h := hcalled.gives hready hvs
      exact hone ⟨h.ready, hadvance.trans h.advance, h.has⟩
  | nil => exact ⟨hσ, .rfl' _, by simp⟩
  | cons _ hcoerced _ ih₁ ih₂ =>
      obtain ⟨hready₁, hadvance₁, hv⟩ := ih₁ hσ
      have h := hcoerced.gives hready₁ (hv _ (by simp))
      obtain ⟨hready₂, hadvance₂, hvs⟩ := ih₂ h.ready
      refine ⟨hready₂, hadvance₁.trans (h.advance.trans hadvance₂), fun u hu => ?_⟩
      rcases List.mem_cons.1 hu with rfl | hu
      · exact hadvance₂.has h.ready.sound h.has
      · exact hvs u hu

/-- Each argument has one value. -/
theorem Values.length_args {config : FaultConfig} {symbols : SymbolTable} {ts : List Tree}
    {σ σ' : Plan} {b : Bool} {vs : List Value} (h : Values config symbols (.args ts) σ b vs σ') :
    vs.length = ts.length := by
  generalize hpart : ValuePart.args ts = part at h
  induction h generalizing ts with
  | nil => cases hpart; rfl
  | cons _ _ _ _ ih => cases hpart; simp [ih rfl]
  | _ => cases hpart

end Plan

namespace Lower

variable {σ : Plan} {s : State}

theorem Leads.intro {α : Type} {work : Lower α} {post : α → Plan → State → Prop}
    (h : s.draft = σ.record.draft → Leads work σ s post) : Leads work σ s post :=
  fun hdraft => h hdraft hdraft

theorem leads_readHere (x : SymbolId) : Leads (readHere x) σ s fun v σ' s' =>
    ∃ d, (Drafting.read x σ.current).on σ.record.draft = (.ok v, d) ∧ σ' = σ.read x v d ∧
      s' = { s with draft := d } := by
  have hread : Drafting.Leads (do Drafting.read x (← Drafting.currentBlock)) σ fun v σ' =>
      ∃ d, (Drafting.read x σ.current).on σ.record.draft = (.ok v, d) ∧ σ' = σ.read x v d := by
    apply Drafting.Leads.bind (Drafting.leads_currentBlock σ)
    rintro b _ ⟨rfl, rfl⟩
    exact Drafting.leads_read x _
  refine leads_onDraft hread ?_
  rintro v σ' ⟨d, hd, rfl⟩
  exact ⟨d, hd, rfl, rfl⟩

theorem leads_checkArity (name : String) (expected found : Nat) :
    Leads (checkArity name expected found) σ s fun _ σ' s' =>
      found = expected ∧ σ' = σ ∧ s' = s := by
  unfold checkArity
  split
  · next h => exact leads_pure ⟨h, rfl, rfl⟩
  · exact leads_throw _

theorem leads_isPi (name : String) : Leads (isPi name) σ s fun b σ' s' =>
    (b = true → name = piName ∧ s.symbols.lookup? piName = none) ∧ σ' = σ ∧ s' = s := by
  rintro hdraft b s' hrun
  cases hrun
  refine ⟨σ, hdraft, fun hb => ?_, rfl, rfl⟩
  simpa using hb

/-- A call does what the relation says if its arguments do. -/
theorem leads_callWith {config : FaultConfig} {span : Span} {name : String} {arguments : Tree}
    {values : Lower (List Value)} (hdraft : s.draft = σ.record.draft)
    (hvalues : Leads values σ s fun vs σ' s' => ∃ b,
      Plan.Values config s.symbols (.args arguments.items) σ b vs σ' ∧
        s' = ⟨s.symbols, σ'.record.draft, s.mayFault || b⟩) :
    Leads (callWith config name arguments.items.length values) σ s fun v σ' s' => ∃ b,
      Plan.Values config s.symbols (.expr (.node span (.call name arguments))) σ b [v] σ' ∧
        s' = ⟨s.symbols, σ'.record.draft, s.mayFault || b⟩ := by
  apply Leads.bind (leads_isPi name)
  rintro isPi σ s ⟨hpi, rfl, rfl⟩
  split
  · next h =>
    obtain ⟨hname, hfree⟩ := hpi h
    apply Leads.bind (leads_checkArity _ _ _)
    rintro ⟨⟩ σ s ⟨hcount, rfl, rfl⟩
    apply Leads.mono (leads_emit _ _)
    rintro v σ' s' ⟨rfl, rfl, rfl⟩
    refine ⟨false, .pi hname hfree hcount, ?_⟩
    rw [Bool.or_false]
  · refine Leads.bind (?_ : Leads _ σ s fun found σ' s' =>
      s.symbols.findFunction name = .ok found ∧ σ' = σ ∧ s' = s) ?_
    · intro hdraft found s' hrun
      dsimp only at hrun
      split at hrun
      · next h =>
        cases hrun
        exact ⟨σ, hdraft, h, rfl, rfl⟩
      · cases hrun
    rintro ⟨id, arity, handled⟩ σ s ⟨hfound, rfl, rfl⟩
    apply Leads.bind (leads_checkArity _ _ _)
    rintro ⟨⟩ σ s ⟨hcount, rfl, rfl⟩
    apply Leads.bind hvalues
    rintro vs σ₁ _ ⟨b, hvs, rfl⟩
    split
    · next h =>
      subst h
      have hinvoke : Leads (onDraft (Drafting.invoke config name vs)) σ₁
          ⟨s.symbols, σ₁.record.draft, s.mayFault || b⟩ fun r σ' s' =>
            Plan.Invoked config σ₁ name vs r.1 σ' ∧
              s' = ⟨s.symbols, σ'.record.draft, s.mayFault || b⟩ :=
        leads_onDraft (Drafting.leads_invokeWith config name vs σ₁) fun _ _ h => ⟨h, rfl⟩
      apply Leads.bind hinvoke
      rintro ⟨v, sites⟩ σ' _ ⟨hinvoked, rfl⟩
      exact leads_pure ⟨b, .call hfound hcount hvs (.handled hinvoked), rfl⟩
    · next h =>
      rw [Bool.not_eq_true] at h
      subst h
      apply Leads.mono (leads_emit _ _)
      rintro v σ' s' ⟨rfl, rfl, rfl⟩
      exact ⟨b, .call hfound hcount hvs .plain, rfl⟩

mutual

/-- The lowering of an expression does what the relation says. -/
theorem leads_expression (config : FaultConfig) (σ : Plan) (s : State) : ∀ t : Tree,
    Leads (expression config t) σ s fun v σ' s' => ∃ b,
      Plan.Values config s.symbols (.expr t) σ b [v] σ' ∧
        s' = ⟨s.symbols, σ'.record.draft, s.mayFault || b⟩
  | .node span (.integer n) => by
    apply Leads.located
    apply Leads.mono (leads_emit _ _)
    rintro v σ' s' ⟨rfl, rfl, rfl⟩
    exact ⟨false, .integer, by rw [Bool.or_false]⟩
  | .node span (.floating x) => by
    apply Leads.located
    apply Leads.mono (leads_emit _ _)
    rintro v σ' s' ⟨rfl, rfl, rfl⟩
    exact ⟨false, .floating, by rw [Bool.or_false]⟩
  | .node span (.ident name) => by
    apply Leads.located
    apply Leads.bind
    case mid => exact fun x σ' s' => s.symbols.findVariable name = .ok x ∧ σ' = σ ∧ s' = s
    · exact leads_variableOf fun x h => ⟨h, rfl, rfl⟩
    · rintro x _ _ ⟨hfind, rfl, rfl⟩
      apply Leads.mono (leads_readHere x)
      rintro v σ' s' ⟨d, hread, rfl, rfl⟩
      exact ⟨false, .ident hfind hread, by rw [Bool.or_false]; rfl⟩
  | .node span (.infixOp op left right) => by
    apply Leads.located
    apply Leads.bind (leads_expression config σ s left)
    rintro l σ₁ _ ⟨b₁, hl, rfl⟩
    apply Leads.bind (leads_expression config σ₁ _ right)
    rintro r σ₂ _ ⟨b₂, hr, rfl⟩
    apply Leads.mono (leads_infixOp config op l r)
    rintro v σ' s' ⟨b₃, hcombined, rfl⟩
    exact ⟨b₁ || b₂ || b₃, .infixOp hl hr hcombined, by simp [Bool.or_assoc]⟩
  | .node span (.negate operand) => by
    apply Leads.located
    apply Leads.bind (leads_expression config σ s operand)
    rintro v σ₁ _ ⟨b, hv, rfl⟩
    apply Leads.mono (leads_negate v)
    rintro v' σ' s' ⟨hnegated, rfl⟩
    exact ⟨b, .negate hv hnegated, rfl⟩
  | .node span (.call name args) => by
    apply Leads.located
    apply Leads.intro
    intro hdraft
    exact leads_callWith hdraft (leads_argumentItems config σ s args)
  | .node span (.program _) | .node span (.list _) | .node span (.letVar ..)
  | .node span (.setVar ..) | .node span (.ifElse ..) | .node span (.forLoop ..)
  | .node span (.giveBack _) | .node span (.fnDef ..) => (leads_throw _).located span
termination_by structural t => t

theorem leads_argumentItems (config : FaultConfig) (σ : Plan) (s : State) : ∀ t : Tree,
    Leads (argumentItems config t) σ s fun vs σ' s' => ∃ b,
      Plan.Values config s.symbols (.args t.items) σ b vs σ' ∧
        s' = ⟨s.symbols, σ'.record.draft, s.mayFault || b⟩
  | .node _ (.program items) => leads_arguments config σ s items
  | .node _ (.list items) => leads_arguments config σ s items
  | .node _ (.integer _) | .node _ (.floating _) | .node _ (.ident _) | .node _ (.infixOp ..)
  | .node _ (.negate _) | .node _ (.call ..) | .node _ (.letVar ..) | .node _ (.setVar ..)
  | .node _ (.ifElse ..) | .node _ (.forLoop ..) | .node _ (.giveBack _) | .node _ (.fnDef ..) => by
    apply Leads.intro
    intro hdraft
    exact leads_pure ⟨false, .nil, by rw [Bool.or_false, ← hdraft]⟩
termination_by structural t => t

theorem leads_arguments (config : FaultConfig) (σ : Plan) (s : State) : ∀ ts : List Tree,
    Leads (arguments config ts) σ s fun vs σ' s' => ∃ b,
      Plan.Values config s.symbols (.args ts) σ b vs σ' ∧
        s' = ⟨s.symbols, σ'.record.draft, s.mayFault || b⟩
  | [] => by
    apply Leads.intro
    intro hdraft
    exact leads_pure ⟨false, .nil, by rw [Bool.or_false, ← hdraft]⟩
  | first :: rest => by
    apply Leads.bind (leads_expression config σ s first)
    rintro v σ₁ _ ⟨b₁, hv, rfl⟩
    apply Leads.bind (leads_coerce v .int)
    rintro v' σ₂ _ ⟨hcoerced, rfl⟩
    apply Leads.bind (leads_arguments config σ₂ _ rest)
    rintro vs σ' _ ⟨b₂, hvs, rfl⟩
    exact leads_pure ⟨b₁ || b₂, .cons hv hcoerced hvs, by rw [Bool.or_assoc]⟩
termination_by structural ts => ts

end

end Lower

end Abacus.Lowering
