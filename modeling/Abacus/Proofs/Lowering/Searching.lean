import Abacus.Proofs.Lowering.Totality

/-!
# Where lowering searches

Lowering asks for the value of a variable or seals a block only in drafts in which searches come to an
end. To see this it is handed other searches, which are right in such drafts and may do anything in the
others: fail, go round for ever, spoil the draft. It does not notice.

* `Lower.SameAt`, `Lower.Same` — work that comes to the same with the searches that are handed over;
* `SameAt.bind` — one piece of work after the other;
* `same_expression`, `same_statement` — by induction on trees;
* `lowerUnit_supplied` — units;
* `searches_end` — searches end, and lowering searches nowhere else.
-/

namespace Abacus.Lowering

open Abacus.Flow (Value Block Ty Inst Function)

namespace Lower

variable {α β : Type} {handed own : Lower α} {handedNext ownNext : α → Lower β} {σ : Plan}
  {s : State}

/-! ## Pieces of work -/

/-- In the draft of the plan both come to the same, be it a result or an error. -/
def SameAt (σ : Plan) (s : State) (handed own : Lower α) : Prop :=
  s.draft = σ.record.draft → handed s = own s

/-- They do so wherever a block is open. -/
def Same (handed own : Lower α) : Prop := ∀ σ s, σ.Ready → SameAt σ s handed own

/-- One piece of work after the other. -/
theorem SameAt.bind {mid : α → Plan → State → Prop} (h : SameAt σ s handed own)
    (hleads : Leads own σ s mid)
    (hnext : ∀ a σ₁ s₁, mid a σ₁ s₁ → SameAt σ₁ s₁ (handedNext a) (ownNext a)) :
    SameAt σ s (handed >>= handedNext) (own >>= ownNext) := by
  intro hdraft
  show (handed s >>= fun p => handedNext p.1 p.2) = (own s >>= fun p => ownNext p.1 p.2)
  rw [h hdraft]
  cases hrun : own s with
  | error e => rfl
  | ok p =>
    obtain ⟨a, s₁⟩ := p
    obtain ⟨σ₁, hdraft₁, hmid⟩ := hleads hdraft a s₁ hrun
    exact hnext a σ₁ s₁ hmid hdraft₁

/-- Work that does not search comes first. -/
theorem SameAt.after {mid : α → Plan → State → Prop} (hleads : Leads own σ s mid)
    (hnext : ∀ a σ₁ s₁, mid a σ₁ s₁ → SameAt σ₁ s₁ (handedNext a) (ownNext a)) :
    SameAt σ s (own >>= handedNext) (own >>= ownNext) := SameAt.bind (fun _ => rfl) hleads hnext

/-- The same follows. -/
theorem SameAt.before (h : SameAt σ s handed own) (next : α → Lower β) :
    SameAt σ s (handed >>= next) (own >>= next) := by
  intro hdraft
  show (handed s >>= fun p => next p.1 p.2) = (own s >>= fun p => next p.1 p.2)
  rw [h hdraft]

theorem SameAt.located (h : SameAt σ s handed own) (span : Span) :
    SameAt σ s (located span handed) (located span own) := by
  intro hdraft
  unfold Lower.located
  rw [h hdraft]

/-- Work on the draft that comes to the same. -/
theorem sameAt_onDraft {handed own : Drafting α}
    (h : handed.on σ.record.draft = own.on σ.record.draft) :
    SameAt σ s (onDraft handed) (onDraft own) := by
  intro hdraft
  unfold onDraft
  rw [hdraft, h]

theorem SameAt.onDraft {handed own : Drafting α} {mid : α → Plan → Prop}
    (h : handed.on σ.record.draft = own.on σ.record.draft) (hleads : Drafting.Leads own σ mid)
    (hnext : ∀ a σ₁ s₁, mid a σ₁ → SameAt σ₁ s₁ (handedNext a) (ownNext a)) :
    SameAt σ s (Lower.onDraft handed >>= handedNext) (Lower.onDraft own >>= ownNext) :=
  SameAt.bind (sameAt_onDraft h) (leads_onDraft hleads fun _ _ hmid => hmid : Leads _ σ s
    fun a σ₁ _ => mid a σ₁) hnext

theorem SameAt.inScope
    (h : SameAt σ { s with symbols := s.symbols.pushScope } handed own) :
    SameAt σ s (inScope handed) (inScope own) := by
  have hpush : Leads (modify fun s => { s with symbols := s.symbols.pushScope }) σ s fun _ σ' s' =>
      σ' = σ ∧ s' = { s with symbols := s.symbols.pushScope } := leads_modify rfl ⟨rfl, rfl⟩
  refine SameAt.after hpush ?_
  rintro ⟨⟩ _ _ ⟨rfl, rfl⟩
  exact h.before _

theorem Same.inScope (h : Same handed own) :
    Same (Lower.inScope handed) (Lower.inScope own) := fun σ _ hσ => SameAt.inScope (h σ _ hσ)

theorem sameAt_refused (span : Span) (d : Defect) :
    SameAt σ s (Lower.located span (defect d : Lower α)) (Lower.located span (defect d)) :=
  fun _ => rfl

/-! ## Expressions -/

variable {S : Searches}

theorem sameAt_readHere (hS : S.Faithful) (hσ : σ.Sound) (x : SymbolId) :
    SameAt σ s (Supplied.readHere S x) (readHere x) :=
  sameAt_onDraft (hS.read x σ.current hσ.searchable)

theorem sameAt_infixOp (hS : S.Faithful) (config : FaultConfig) (op : InfixOp) {lhs rhs : Value}
    (hσ : σ.Ready) (hlhs : σ.Has σ.current lhs) (hrhs : σ.Has σ.current rhs) :
    SameAt σ s (Supplied.infixOp S config op lhs rhs) (infixOp config op lhs rhs) := by
  refine SameAt.after (leads_typeOf lhs) ?_
  rintro lty σ _ ⟨rfl, rfl, rfl⟩
  refine SameAt.after (leads_typeOf rhs) ?_
  rintro rty σ _ ⟨rfl, rfl, rfl⟩
  refine SameAt.after (leads_coerce lhs _) ?_
  rintro l σ₁ _ ⟨hleft, rfl⟩
  have h₁ := hleft.gives hσ hlhs
  refine SameAt.after (leads_coerce rhs _) ?_
  rintro r σ₂ _ ⟨hright, rfl⟩
  have h₂ := hright.gives h₁.ready (h₁.keeps hσ hrhs)
  -- Only the division of integers seals blocks.
  generalize meet (σ.builder.ty lhs) (σ.builder.ty rhs) = ty
  rcases operation op with arith | cmp
  · cases ty with
    | float => exact fun _ => rfl
    | _ =>
      cases arith with
      | div =>
        have hdivides := Drafting.concurs_checkedDiv hS config l h₂.ready h₂.has
        exact (sameAt_onDraft hdivides.on_eq).before _
      | _ => exact fun _ => rfl
  · cases ty <;> exact fun _ => rfl

/-- A call agrees if its arguments do. -/
theorem sameAt_callWith (hS : S.Faithful) (config : FaultConfig) (name : String) {ts : List Tree}
    {handed own : Lower (List Value)} (hσ : σ.Ready) (h : SameAt σ s handed own)
    (hleads : Leads own σ s fun vs σ' s' => ∃ b,
      Plan.Values config s.symbols (.args ts) σ b vs σ' ∧
        s' = ⟨s.symbols, σ'.record.draft, s.mayFault || b⟩) (count : Nat) :
    SameAt σ s (Supplied.callWith S config name count handed) (callWith config name count own) := by
  refine SameAt.after (leads_isPi name) ?_
  rintro isPi σ s ⟨-, rfl, rfl⟩
  split
  · exact fun _ => rfl
  · refine SameAt.after (?_ : Leads _ σ s fun _ σ' s' => σ' = σ ∧ s' = s) ?_
    · intro hdraft found s' hrun
      dsimp only at hrun
      split at hrun
      · cases hrun
        exact ⟨σ, hdraft, rfl, rfl⟩
      · cases hrun
    rintro ⟨id, arity, mayFault⟩ σ s ⟨rfl, rfl⟩
    refine SameAt.after (leads_checkArity _ _ _) ?_
    rintro ⟨⟩ σ s ⟨-, rfl, rfl⟩
    refine SameAt.bind h hleads ?_
    rintro vs σ₁ _ ⟨b, hvs, rfl⟩
    obtain ⟨hready, -, hhas⟩ := hvs.gives hσ
    split
    · have hinvokes := Drafting.concurs_invoke hS config name hready hhas
      exact (sameAt_onDraft hinvokes.on_eq).before _
    · exact fun _ => rfl

mutual

/-- The lowering of an expression agrees. -/
theorem same_expression (hS : S.Faithful) (config : FaultConfig) :
    ∀ t : Tree, Same (Supplied.expression S config t) (expression config t)
  | .node span (.integer n) => fun _ _ _ => SameAt.located (fun _ => rfl) span
  | .node span (.floating x) => fun _ _ _ => SameAt.located (fun _ => rfl) span
  | .node span (.ident name) => by
    intro σ s hσ
    have hfound : Leads (variableOf name) σ s fun _ σ' _ => σ' = σ := leads_variableOf fun _ _ => rfl
    refine SameAt.located (SameAt.after hfound ?_) span
    rintro x _ _ rfl
    exact sameAt_readHere hS hσ.sound x
  | .node span (.infixOp op left right) => by
    intro σ s hσ
    refine SameAt.located (SameAt.bind (same_expression hS config left σ s hσ)
      (leads_expression config σ s left) ?_) span
    rintro l σ₁ _ ⟨b₁, hl, rfl⟩
    have hleft := hl.givesOne hσ
    refine SameAt.bind (same_expression hS config right σ₁ _ hleft.ready)
      (leads_expression config σ₁ _ right) ?_
    rintro r σ₂ _ ⟨b₂, hr, rfl⟩
    have hright := hr.givesOne hleft.ready
    exact sameAt_infixOp hS config op hright.ready (hright.keeps hleft.ready hleft.has) hright.has
  | .node span (.negate operand) =>
    fun σ s hσ => SameAt.located ((same_expression hS config operand σ s hσ).before _) span
  | .node span (.call name arguments) => fun σ s hσ =>
    SameAt.located (sameAt_callWith hS config name hσ (same_argumentItems hS config arguments σ s hσ)
      (leads_argumentItems config σ s arguments) _) span
  | .node span (.program _) | .node span (.list _) | .node span (.letVar ..)
  | .node span (.setVar ..) | .node span (.ifElse ..) | .node span (.forLoop ..)
  | .node span (.giveBack _) | .node span (.fnDef ..) =>
    fun _ _ _ => sameAt_refused span _
termination_by structural t => t

theorem same_argumentItems (hS : S.Faithful) (config : FaultConfig) :
    ∀ t : Tree, Same (Supplied.argumentItems S config t) (argumentItems config t)
  | .node _ (.program items) => same_arguments hS config items
  | .node _ (.list items) => same_arguments hS config items
  | .node _ (.integer _) | .node _ (.floating _) | .node _ (.ident _) | .node _ (.infixOp ..)
  | .node _ (.negate _) | .node _ (.call ..) | .node _ (.letVar ..) | .node _ (.setVar ..)
  | .node _ (.ifElse ..) | .node _ (.forLoop ..) | .node _ (.giveBack _) | .node _ (.fnDef ..) =>
    fun _ _ _ _ => rfl
termination_by structural t => t

theorem same_arguments (hS : S.Faithful) (config : FaultConfig) :
    ∀ ts : List Tree, Same (Supplied.arguments S config ts) (arguments config ts)
  | [] => fun _ _ _ _ => rfl
  | first :: rest => by
    intro σ s hσ
    refine SameAt.bind (same_expression hS config first σ s hσ) (leads_expression config σ s first) ?_
    rintro v σ₁ _ ⟨b₁, hv, rfl⟩
    have hfirst := hv.givesOne hσ
    refine SameAt.after (leads_coerce v .int) ?_
    rintro v' σ₂ _ ⟨hcoerced, rfl⟩
    exact (same_arguments hS config rest σ₂ _ (hcoerced.gives hfirst.ready hfirst.has).ready).before _
termination_by structural ts => ts

end

/-! ## Statements -/

/-- A condition agrees if its bodies do. -/
theorem sameAt_ifElse (hS : S.Faithful) {config : FaultConfig} {v : Value}
    {thenItems elseItems : List Tree} {thenHanded thenOwn elseHanded elseOwn : Lower Unit}
    (hσ : σ.Ready) (hv : σ.Has σ.current v)
    (hthen : Body config thenItems thenOwn) (helse : Body config elseItems elseOwn)
    (sameThen : Same thenHanded thenOwn) (sameElse : Same elseHanded elseOwn) :
    SameAt σ s (Supplied.ifElse S v thenHanded elseHanded) (ifElse v thenOwn elseOwn) := by
  refine SameAt.after (leads_truthy v) ?_
  rintro test σ₂ _ ⟨htested, rfl⟩
  have htest := htested.gives hσ hv
  have hbranch := (Drafting.concurs_split hS htest.ready htest.has).on_eq
  refine SameAt.onDraft hbranch (Drafting.leads_split test σ₂) ?_
  rintro ⟨elseBlock, join⟩ σ₃ _ ⟨hblocks, hsplit⟩
  cases hblocks
  -- The body that is run when the condition holds, in the first of the new blocks.
  have hfirst := hsplit.firstBody htest.ready htest.has
  refine SameAt.bind (sameThen _ _ hfirst.ready) (hthen _ _ hfirst.ready) ?_
  rintro ⟨⟩ σ₄ _ ⟨b₂, r₂, symbols₁, symbols₂, hitems, -, rfl⟩
  obtain ⟨hready₄, hadvance₄, -⟩ := hitems.advance hfirst.ready
  have hsecond := hfirst.secondBody htest.ready hready₄ hadvance₄
  refine SameAt.after (leads_jumpTo _) ?_
  rintro ⟨⟩ _ _ ⟨rfl, rfl⟩
  refine SameAt.onDraft rfl (Drafting.leads_setCurrent _ _ (σ₂.spine σ₂.current)) ?_
  rintro ⟨⟩ _ _ rfl
  -- The other body, from the condition on.
  refine SameAt.bind (sameElse _ _ hsecond.ready) (helse _ _ hsecond.ready) ?_
  rintro ⟨⟩ σ₅ _ ⟨b₃, r₃, symbols₃, symbols₄, hitems', -, rfl⟩
  obtain ⟨hready₅, hadvance₅, -⟩ := hitems'.advance hsecond.ready
  refine SameAt.after (leads_jumpTo _) ?_
  rintro ⟨⟩ _ _ ⟨rfl, rfl⟩
  exact sameAt_onDraft (Drafting.concurs_joinWays hS hsecond hready₅ hadvance₅).on_eq

/-- A loop agrees if its body does. -/
theorem sameAt_forLoop (hS : S.Faithful) {config : FaultConfig} (index : String) {limit : Value}
    {ts : List Tree} {handed own : Lower Unit} (hσ : σ.Ready) (hlimit : σ.Has σ.current limit)
    (hbody : Body config ts own) (hsame : Same handed own) :
    SameAt σ s (Supplied.forLoop S index limit handed) (forLoop index limit own) := by
  refine SameAt.inScope (SameAt.after (leads_define index) ?_)
  rintro x σ s ⟨symbols₁, -, rfl, rfl⟩
  refine SameAt.after (leads_declare x .int) ?_
  rintro ⟨⟩ _ _ ⟨rfl, rfl⟩
  refine SameAt.after (leads_emit _ _) ?_
  rintro zero _ _ ⟨rfl, rfl, rfl⟩
  refine SameAt.after (leads_writeHere x _) ?_
  rintro ⟨⟩ σ₂ _ ⟨hσ₂, rfl⟩
  obtain rfl : σ₂ = Plan.countFrom σ x := hσ₂
  obtain ⟨hready, hadvance⟩ := Plan.advance_countFrom hσ x
  have hlimit₂ := hadvance.has hσ.sound hlimit
  have htype : (Plan.countFrom σ x).known.type? x = some ((σ.known.type? x).getD .int) :=
    Variables.type?_declare σ.known x .int
  have hhead := (Drafting.concurs_loopHead hS hready hlimit₂ (by rw [htype]; rfl)).on_eq
  refine SameAt.onDraft hhead (Drafting.leads_loopHead x limit _) ?_
  rintro ⟨header, bodyEnd, exit⟩ σ₃ _ ⟨hblocks, hloopHead⟩
  cases hblocks
  -- The body, in the first of the three blocks.
  have hloop := hloopHead.loopBody hready hlimit₂
  refine SameAt.bind (hsame _ _ hloop.ready) (hbody _ _ hloop.ready) ?_
  rintro ⟨⟩ σ₄ _ ⟨b, r, symbols₂, symbols₃, hitems, -, rfl⟩
  obtain ⟨hready₄, hadvance₄, -⟩ := hitems.advance hloop.ready
  have htype₄ := (hloop.behind.trans hadvance₄.behind).extends'.type htype
  refine SameAt.after (leads_jumpTo _) ?_
  rintro ⟨⟩ _ _ ⟨rfl, rfl⟩
  exact sameAt_onDraft
    (Drafting.concurs_loopTail hS hready hloop hready₄ hadvance₄ (by rw [htype₄]; rfl)).on_eq

/-- An expression comes first, and gives a value. -/
theorem SameAt.value (hS : S.Faithful) (config : FaultConfig) {value : Tree}
    {handedNext ownNext : Value → Lower β} (hσ : σ.Ready)
    (hnext : ∀ v σ₁ s₁, Plan.Gives σ σ₁ v → SameAt σ₁ s₁ (handedNext v) (ownNext v)) :
    SameAt σ s (Supplied.expression S config value >>= handedNext)
      (expression config value >>= ownNext) := by
  refine SameAt.bind (same_expression hS config value σ s hσ)
    (leads_expression config σ s value) ?_
  rintro v σ₁ s₁ ⟨b, hv, -⟩
  exact hnext v σ₁ s₁ (hv.givesOne hσ)

/-- An expression that is converted to an integer comes first. -/
theorem SameAt.integer (hS : S.Faithful) (config : FaultConfig) {value : Tree}
    {handedNext ownNext : Value → Lower β} (hσ : σ.Ready)
    (hnext : ∀ v σ₁ s₁, Plan.Gives σ σ₁ v → SameAt σ₁ s₁ (handedNext v) (ownNext v)) :
    SameAt σ s (do handedNext (← coerce (← Supplied.expression S config value) .int))
      (do ownNext (← coerce (← expression config value) .int)) := by
  refine SameAt.value hS config hσ fun v σ₁ s₁ hv => SameAt.after (leads_coerce v .int) ?_
  rintro v' σ₂ s₂ ⟨hcoerced, -⟩
  exact hnext v' σ₂ s₂ (hv.trans (hcoerced.gives hv.ready hv.has))

/-- An expression agrees as a statement. -/
theorem same_evaluated (hS : S.Faithful) (config : FaultConfig) (span : Span) (t : Tree) :
    Same (located span do return some (← Supplied.expression S config t))
      (located span do return some (← expression config t)) :=
  fun σ s hσ => SameAt.located ((same_expression hS config t σ s hσ).before _) span

mutual

/-- The lowering of a statement agrees. -/
theorem same_statement (hS : S.Faithful) (config : FaultConfig) :
    ∀ t : Tree, Same (Supplied.statement S config t) (statement config t)
  | .node span (.letVar name value) => fun σ s hσ =>
    SameAt.located ((same_expression hS config value σ s hσ).before _) span
  | .node span (.setVar name value) => fun σ s hσ =>
    SameAt.located ((same_expression hS config value σ s hσ).before _) span
  | .node span (.giveBack value) => fun σ s hσ => by
    refine SameAt.located (SameAt.integer hS config hσ fun v σ₁ s₁ hv => ?_) span
    exact (sameAt_onDraft (Drafting.concurs_giveBack hS hv.ready hv.has).on_eq).before _
  | .node span (.ifElse condition thenBody none) => fun σ s hσ => by
    refine SameAt.located (SameAt.value hS config hσ fun v σ₁ s₁ hv => ?_) span
    exact (sameAt_ifElse hS hv.ready hv.has
      (body_inScope fun σ s hσ => leads_items config hσ s thenBody) (body_nothing config)
      (same_items hS config thenBody).inScope fun _ _ _ _ => rfl).before _
  | .node span (.ifElse condition thenBody (some elseBody)) => fun σ s hσ => by
    refine SameAt.located (SameAt.value hS config hσ fun v σ₁ s₁ hv => ?_) span
    exact (sameAt_ifElse hS hv.ready hv.has
      (body_inScope fun σ s hσ => leads_items config hσ s thenBody)
      (body_inScope fun σ s hσ => leads_items config hσ s elseBody)
      (same_items hS config thenBody).inScope (same_items hS config elseBody).inScope).before _
  | .node span (.forLoop index bound body) => fun σ s hσ => by
    refine SameAt.located (SameAt.integer hS config hσ fun limit σ₁ s₁ hlimit => ?_) span
    exact (sameAt_forLoop hS index hlimit.ready hlimit.has
      (body_inScope fun σ s hσ => leads_items config hσ s body)
      (same_items hS config body).inScope).before _
  | .node span (.fnDef ..) | .node span (.program _) | .node span (.list _) =>
    fun _ _ _ => sameAt_refused span _
  | .node span (.integer n) => same_evaluated hS config span (.node span (.integer n))
  | .node span (.floating x) => same_evaluated hS config span (.node span (.floating x))
  | .node span (.ident name) => same_evaluated hS config span (.node span (.ident name))
  | .node span (.infixOp op left right) =>
    same_evaluated hS config span (.node span (.infixOp op left right))
  | .node span (.negate operand) => same_evaluated hS config span (.node span (.negate operand))
  | .node span (.call name arguments) =>
    same_evaluated hS config span (.node span (.call name arguments))
termination_by structural t => t

theorem same_items (hS : S.Faithful) (config : FaultConfig) :
    ∀ t : Tree, Same (Supplied.items S config t) (items config t)
  | .node _ (.program items) => same_statements hS config items
  | .node _ (.list items) => same_statements hS config items
  | .node _ (.integer _) | .node _ (.floating _) | .node _ (.ident _) | .node _ (.infixOp ..)
  | .node _ (.negate _) | .node _ (.call ..) | .node _ (.letVar ..) | .node _ (.setVar ..)
  | .node _ (.ifElse ..) | .node _ (.forLoop ..) | .node _ (.giveBack _) | .node _ (.fnDef ..) =>
    fun _ _ _ _ => rfl
termination_by structural t => t

theorem same_statements (hS : S.Faithful) (config : FaultConfig) :
    ∀ ts : List Tree, Same (Supplied.statements S config ts) (statements config ts)
  | [] => fun _ _ _ _ => rfl
  | first :: rest => by
    intro σ s hσ
    refine SameAt.bind (same_statement hS config first σ s hσ) (leads_statement config hσ s first) ?_
    rintro r σ₁ s₁ ⟨b, symbols, hfirst, -⟩
    exact same_statements hS config rest σ₁ s₁ (hfirst.advance hσ).1
termination_by structural ts => ts

end

theorem same_statementsValue (hS : S.Faithful) (config : FaultConfig) (ts : List Tree) :
    Same (Supplied.statementsValue S config ts) (statementsValue config ts) := by
  induction ts with
  | nil => exact fun _ _ _ _ => rfl
  | cons first rest ih =>
    intro σ s hσ
    refine SameAt.bind (same_statement hS config first σ s hσ) (leads_statement config hσ s first) ?_
    rintro r σ₁ s₁ ⟨b, symbols, hfirst, -⟩
    exact (ih σ₁ s₁ (hfirst.advance hσ).1).before _

end Lower

/-! ## Functions and units -/

variable {S : Searches} (hS : S.Faithful)

include hS

theorem openFunction_supplied (symbols : SymbolTable) (name : String) (arity : Nat) :
    Supplied.openFunction S symbols name arity = openFunction symbols name arity := by
  refine except_bind_congr fun ⟨id, opened⟩ _ => ?_
  have hstart := Plan.sound_start name (List.replicate arity .int) .int
  have hsealed : Lower.onDraft (S.sealBlock Function.entry)
      ⟨opened, (Plan.start name (List.replicate arity .int) .int).record.draft, false⟩ =
      Lower.onDraft (Drafting.sealBlock Function.entry) _ :=
    Lower.sameAt_onDraft (hS.sealBlock Function.entry hstart.searchable) rfl
  exact congrArg (· >>= fun result => pure result.2) hsealed

theorem lowerFunction_supplied (options : Options) (symbols : SymbolTable) (span : Span)
    (name : String) (parameters : List String) (body : Tree) :
    Supplied.lowerFunction S options symbols span name parameters body =
      lowerFunction options symbols span name parameters body := by
  unfold Supplied.lowerFunction lowerFunction
  dsimp only
  rw [openFunction_supplied hS]
  refine except_bind_congr fun start hopen => ?_
  obtain ⟨id, opened, σ, -, hopens, rfl⟩ := openFunction_ok (locateError_eq_ok hopen)
  have hbegun := hopens.begun
  have hbody : Lower.SameAt σ ⟨opened, σ.record.draft, false⟩
      (Lower.inScope do
        Lower.parameters span parameters 0
        Supplied.items S options.fault body)
      (Lower.inScope do
        Lower.parameters span parameters 0
        Lower.items options.fault body) := by
    refine .inScope (.after (Lower.leads_parameters span parameters 0 hbegun.current) ?_)
    rintro ⟨⟩ σ₁ s₁ ⟨symbols₁, hparams, -⟩
    obtain ⟨hready, -⟩ := hparams.advance hbegun.ready fun k hk => by
      rw [hbegun.current]
      exact hbegun.params k (by omega)
    exact Lower.same_items hS options.fault body σ₁ s₁ hready
  rw [hbody rfl]

theorem lowerStatements_supplied (options : Options) (symbols : SymbolTable) (name : String)
    (items : List Tree) : Supplied.lowerStatements S options symbols name items =
      lowerStatements options symbols name items := by
  unfold Supplied.lowerStatements lowerStatements
  dsimp only
  rw [openFunction_supplied hS]
  refine except_bind_congr fun start hopen => ?_
  obtain ⟨id, opened, σ, -, hopens, rfl⟩ := openFunction_ok (locateError_eq_ok hopen)
  exact congrArg (· >>= _)
    ((Lower.same_statementsValue hS options.fault items).inScope σ _ hopens.begun.ready rfl)

theorem lowerItem_supplied (options : Options) :
    Supplied.lowerItem S options = lowerItem options := by
  funext progress ⟨span, shape⟩
  unfold Supplied.lowerItem lowerItem
  cases shape with
  | fnDef name parameters body =>
    dsimp only
    rw [lowerFunction_supplied hS]
  | _ => rfl

/-- Handed other searches, lowering gives what it gives with its own, result or error, as long as they
are right wherever searches end. -/
theorem lowerUnit_supplied (options : Options) (exports : List Export) (unitName : String)
    (tree? : Option Tree) : Supplied.lowerUnit S options exports unitName tree? =
      lowerUnit options exports unitName tree? := by
  unfold Supplied.lowerUnit lowerUnit
  refine except_bind_congr fun symbols _ => ?_
  cases tree? with
  | none => rfl
  | some tree =>
    dsimp only
    rw [lowerItem_supplied hS]
    refine except_bind_congr fun progress _ => ?_
    split
    · rfl
    · rw [lowerStatements_supplied hS]

omit hS

/-- With its own searches it is lowering. -/
theorem lowerUnit_own : Supplied.lowerUnit .own = lowerUnit := by
  funext options exports unitName tree?
  exact lowerUnit_supplied Searches.faithful_own options exports unitName tree?

/-! ## Searches end -/

/-- Searches come to an end in every draft that steps in existing blocks lead to, unless it has a cycle of
sealed blocks with one predecessor each, and they do so in all drafts through which they lead. Lowering
searches in such drafts only: in others the searches that it is handed may do anything, and every unit
still gives the same. -/
theorem searches_end :
    (∀ {name : String} {params : List Ty} {result : Ty} {ops : List Op},
      Recording.Keeps Recording.Within (Recording.start name params result) ops →
        ((Recording.start name params result).run ops).draft.Acyclic →
          ((Recording.start name params result).run ops).draft.Searchable) ∧
      (∀ {d d' : Draft}, d.Searchable → Relation.ReflTransGen Draft.Searches d d' →
        d'.Searchable ∧ d'.SearchesEnd) ∧
      ∀ {S : Searches}, S.Faithful →
        ∀ (options : Options) (exports : List Export) (unitName : String) (tree? : Option Tree),
          Supplied.lowerUnit S options exports unitName tree? =
            lowerUnit options exports unitName tree? := by
  refine ⟨Recording.searchable_run, fun hd hsteps => ?_, lowerUnit_supplied⟩
  have hd' := hd.searches hsteps
  exact ⟨hd', hd'.searchesEnd⟩

open Classical in
/-- Searches that refuse every draft in which they might not end. -/
noncomputable def Searches.wary : Searches where
  read x b := do if (← get).Searchable then Drafting.read x b else throw (.ofDefect (.endless x b))
  sealBlock b := do
    if (← get).Searchable then Drafting.sealBlock b else throw (.ofDefect (.sealedTwice b))

theorem Searches.faithful_wary : wary.Faithful where
  read x b hd := by
    classical
    show (if _ then Drafting.read x b else _ : Drafting Value).on _ = _
    rw [if_pos hd]
  sealBlock b hd := by
    classical
    show (if _ then Drafting.sealBlock b else _ : Drafting Unit).on _ = _
    rw [if_pos hd]

/-- They end in the loop whose head is sealed after the edge back to it, and lowering never finds itself
refused. -/
theorem searches_end_wary :
    (Recording.loopWith Recording.lateBack).draft.SearchesEnd ∧
      ∀ (options : Options) (exports : List Export) (unitName : String) (tree? : Option Tree),
        Supplied.lowerUnit .wary options exports unitName tree? =
          lowerUnit options exports unitName tree? := by
  obtain ⟨hreached, hends, hlowers⟩ := searches_end
  have hloop := hreached Recording.within_late Recording.complete_lateBack.acyclic
  exact ⟨(hends hloop .refl).2, hlowers Searches.faithful_wary⟩

end Abacus.Lowering
