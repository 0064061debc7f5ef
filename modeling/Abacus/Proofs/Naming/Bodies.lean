import Abacus.Proofs.Naming.Fitting
import Abacus.Proofs.Naming.Walk
import Abacus.Proofs.Tree.Positions

/-!
# Lowering a body walks through its names

The lowering of a part of a body fails if and only if something is wrong on the walk through its
names, and then with the first thing that is. When it does not fail, the names in scope afterwards
are those at the end of the walk.

* `Lower.Walks` — a piece of work does with names what some events say, and fails for no other reason;
* `Walks.bind` — one piece of work after the other;
* `traverses_expression`, `traverses_statement` — by induction on the trees that are expressions
  and statements.
-/

namespace Abacus.Lowering.Lower

open Abacus.Flow (Value Block Ty Inst Terminator Builder)

variable {α β : Type} {work : Lower α} {next : α → Lower β} {σ σ₁ : Plan} {s s₁ : State}
  {span : Span} {events front back : List NameEvent} {config : FaultConfig} {opened : SymbolTable}

/-! ## Pieces of work -/

/-- The work comes to its end if nothing is wrong with the events, and the names in scope are then
those after them. Otherwise it fails with the first thing that is wrong. What has no place yet gets the
place `span`. -/
def Walks (span : Span) (work : Lower α) (s : State) (events : List NameEvent) : Prop :=
  match walk s.symbols.names events with
  | .ok scopes => ∃ a s', work s = .ok (a, s') ∧ s'.symbols.names = scopes
  | .error e => (∃ e', work s = .error e' ∧ e'.locate span = e) ∧ e.span.IsPlace

/-- The work walks through the events wherever the plan fits the names in scope. -/
def Traverses (opened : SymbolTable) (span : Span) (work : Lower α) (events : List NameEvent) : Prop :=
  ∀ {σ : Plan} {s : State}, s.draft = σ.record.draft → σ.Fit opened s.symbols →
    Walks span work s events

theorem bind_of_ok {a : α} (h : work s = .ok (a, s₁)) : (work >>= next) s = next a s₁ := by
  show (work s >>= fun p => next p.1 p.2) = _
  rw [h]
  rfl

theorem bind_of_error {e : LoweringError} (h : work s = .error e) :
    (work >>= next) s = .error e := by
  show (work s >>= fun p => next p.1 p.2) = _
  rw [h]
  rfl

/-- One piece of work after the other. -/
theorem Walks.bind {mid : α → Plan → State → Prop} (hdraft : s.draft = σ.record.draft)
    (h : Walks span work s front) (hleads : Leads work σ s mid)
    (hnext : ∀ a σ₁ s₁, s₁.draft = σ₁.record.draft → mid a σ₁ s₁ → Walks span (next a) s₁ back) :
    Walks span (work >>= next) s (front ++ back) := by
  unfold Walks at h ⊢
  rw [walk_append]
  cases hwalk : walk s.symbols.names front with
  | error e =>
    rw [hwalk] at h
    obtain ⟨⟨e', hwork, he⟩, hplace⟩ := h
    exact ⟨⟨e', bind_of_error hwork, he⟩, hplace⟩
  | ok scopes =>
    rw [hwalk] at h
    obtain ⟨a, s₁, hwork, rfl⟩ := h
    obtain ⟨σ₁, hdraft₁, hmid⟩ := hleads hdraft a s₁ hwork
    rw [bind_of_ok hwork]
    exact hnext a σ₁ s₁ hdraft₁ hmid

/-- Work that does nothing with names comes first. -/
theorem Walks.bind_nil {mid : α → Plan → State → Prop} (hdraft : s.draft = σ.record.draft)
    (h : Walks span work s []) (hleads : Leads work σ s mid)
    (hnext : ∀ a σ₁ s₁, s₁.draft = σ₁.record.draft → mid a σ₁ s₁ → Walks span (next a) s₁ back) :
    Walks span (work >>= next) s back := Walks.bind hdraft h hleads hnext

/-- Work with a single name comes first. -/
theorem Walks.bind_cons {event : NameEvent} {mid : α → Plan → State → Prop}
    (hdraft : s.draft = σ.record.draft) (h : Walks span work s [event]) (hleads : Leads work σ s mid)
    (hnext : ∀ a σ₁ s₁, s₁.draft = σ₁.record.draft → mid a σ₁ s₁ → Walks span (next a) s₁ back) :
    Walks span (work >>= next) s (event :: back) := Walks.bind hdraft h hleads hnext

/-- The result is made into another one. -/
theorem Walks.result (f : α → β) (h : Walks span work s events) :
    Walks span (work >>= fun a => pure (f a)) s events := by
  unfold Walks at h ⊢
  cases hwalk : walk s.symbols.names events with
  | error e =>
    rw [hwalk] at h
    obtain ⟨⟨e', hwork, he⟩, hplace⟩ := h
    exact ⟨⟨e', bind_of_error hwork, he⟩, hplace⟩
  | ok scopes =>
    rw [hwalk] at h
    obtain ⟨a, s', hwork, hnames⟩ := h
    exact ⟨f a, s', bind_of_ok hwork, hnames⟩

/-- Work that leaves the names comes first. -/
theorem Walks.after {a : α} (h : work s = .ok (a, s₁)) (hnames : s₁.symbols = s.symbols)
    (hnext : Walks span (next a) s₁ events) : Walks span (work >>= next) s events := by
  unfold Walks at hnext ⊢
  rwa [bind_of_ok h, ← hnames]

theorem walks_pure (a : α) : Walks span (pure a) s [] := ⟨a, s, rfl, rfl⟩

/-- Errors that have no place get it here; the others have one. -/
theorem Walks.located (h : Walks span work s events) (outer : Span) :
    Walks outer (located span work) s events := by
  unfold Walks at h ⊢
  cases hwalk : walk s.symbols.names events with
  | error e =>
    rw [hwalk] at h
    obtain ⟨⟨e', hwork, rfl⟩, hplace⟩ := h
    refine ⟨⟨e'.locate span, ?_, ?_⟩, hplace⟩
    · unfold Lower.located
      rw [hwork]
    · rw [LoweringError.locate, if_neg hplace.ne_none]
  | ok scopes =>
    rw [hwalk] at h
    obtain ⟨a, s', hwork, hnames⟩ := h
    refine ⟨a, s', ?_, hnames⟩
    unfold Lower.located
    rw [hwork]

/-- Work on the draft that has a result. -/
theorem walks_onDraft {work : Drafting α} (hdraft : s.draft = σ.record.draft)
    (h : Drafting.Succeeds work σ) : Walks span (onDraft work) s [] := by
  obtain ⟨a, d, hwork⟩ := h
  refine ⟨a, { s with draft := d }, ?_, rfl⟩
  unfold onDraft
  rw [hdraft, hwork]

theorem Walks.onDraft {work : Drafting α} {mid : α → Plan → Prop}
    (hdraft : s.draft = σ.record.draft) (h : Drafting.Succeeds work σ)
    (hleads : Drafting.Leads work σ mid) (hnext : ∀ a σ₁, mid a σ₁ →
      Walks span (next a) { s with draft := σ₁.record.draft } events) :
    Walks span (Lower.onDraft work >>= next) s events := by
  obtain ⟨a, d, hwork⟩ := h
  obtain ⟨σ₁, rfl, hmid⟩ := hleads a d hwork
  have hrun : Lower.onDraft work s = .ok (a, { s with draft := σ₁.record.draft }) := by
    unfold Lower.onDraft
    rw [hdraft, hwork]
  exact Walks.after hrun rfl (hnext a σ₁ hmid)

theorem Walks.emit {inst : Inst} {ty : Ty} {next : Value → Lower β}
    (hdraft : s.draft = σ.record.draft)
    (hnext : Walks span (next σ.next) { s with draft := (σ.emit inst ty).record.draft } events) :
    Walks span (emit inst ty >>= next) s events := by
  refine Walks.onDraft hdraft ⟨_, _, rfl⟩ (Drafting.leads_emit inst ty σ) ?_
  rintro v _ ⟨rfl, rfl⟩
  exact hnext

theorem walks_emit (hdraft : s.draft = σ.record.draft) (inst : Inst) (ty : Ty) :
    Walks span (Lower.emit inst ty) s [] := walks_onDraft hdraft ⟨_, _, rfl⟩

theorem Walks.typeOf {v : Value} {next : Ty → Lower β} (hdraft : s.draft = σ.record.draft)
    (hnext : Walks span (next (σ.builder.ty v)) s events) :
    Walks span (Lower.typeOf v >>= next) s events := by
  refine Walks.onDraft hdraft ⟨_, _, rfl⟩ (Drafting.leads_typeOf v σ) ?_
  rintro _ _ ⟨rfl, rfl⟩
  rwa [← hdraft]

/-! ## Names -/

/-- Something is wrong with the first event, and the work fails with that. -/
theorem walks_violates {event : NameEvent} (cause : Cause) (hspan : span.IsPlace)
    (hviolation : event.violation? s.symbols.names = some ⟨cause, span⟩)
    (hwork : work s = .error (.ofCause cause)) : Walks span work s (event :: events) := by
  unfold Walks
  rw [walk_cons, NameEvent.step, hviolation]
  exact ⟨⟨_, hwork, rfl⟩, hspan⟩

/-- Nothing is wrong with the first event, which leaves the names. -/
theorem Walks.passes {event : NameEvent} (h : Walks span work s events)
    (hnone : event.violation? s.symbols.names = none)
    (hafter : event.after s.symbols.names = s.symbols.names) :
    Walks span work s (event :: events) := by
  unfold Walks at h ⊢
  rw [walk_cons, NameEvent.step, hnone]
  rwa [← hafter] at h

/-- A variable is looked for. -/
theorem walks_variableOf (name : String) (hspan : span.IsPlace) :
    Walks span (variableOf name) s [.use span name] := by
  have hfind := SymbolTable.find?_names s.symbols name
  have hwork : variableOf name s = (s.symbols.findVariable name).map (·, s) := by
    unfold variableOf
    cases s.symbols.findVariable name <;> rfl
  unfold SymbolTable.findVariable at hwork
  cases hlookup : s.symbols.lookup? name with
  | none =>
    rw [hlookup] at hfind hwork
    exact walks_violates _ hspan (by rw [NameEvent.violation?, hfind]; rfl) hwork
  | some symbol =>
    obtain ⟨id, binding⟩ := symbol
    rw [hlookup] at hfind hwork
    cases binding with
    | var => exact Walks.passes ⟨id, s, hwork, rfl⟩ (by rw [NameEvent.violation?, hfind]; rfl) rfl
    | function arity mayFault =>
      exact walks_violates _ hspan (by rw [NameEvent.violation?, hfind]; rfl) hwork

/-- A name is defined. -/
theorem walks_define (name : String) (binding : Binding) (hspan : span.IsPlace) :
    Walks span (define name binding) s [.define span name binding.kind] := by
  have hstep := s.symbols.define_names name binding span
  have hwork : define name binding s = match s.symbols.define name binding with
    | .ok (id, symbols) => .ok (id, { s with symbols := symbols })
    | .error e => .error e := by
    unfold define onSymbols
    dsimp only
    cases s.symbols.define name binding <;> rfl
  unfold Walks
  rw [walk_cons]
  rw [NameEvent.step] at hstep ⊢
  cases hviolation : (NameEvent.define span name binding.kind).violation? s.symbols.names with
  | none =>
    rw [hviolation] at hstep
    obtain ⟨id, t, hdefine, hnames⟩ := hstep
    rw [hdefine] at hwork
    exact ⟨id, _, hwork, hnames⟩
  | some e =>
    rw [hviolation] at hstep
    obtain ⟨e', hdefine, he⟩ := hstep
    rw [hdefine] at hwork
    refine ⟨⟨e', hwork, he⟩, ?_⟩
    rw [NameEvent.violation?] at hviolation
    split at hviolation
    · cases hviolation
      exact hspan
    · cases hviolation

/-- A scope is opened. -/
theorem Walks.enter {next : PUnit → Lower β}
    (h : Walks span (next ⟨⟩) { s with symbols := s.symbols.pushScope } events) :
    Walks span ((modify fun s => { s with symbols := s.symbols.pushScope } : Lower PUnit) >>= next) s
      (.enter :: events) := by
  have hpush : (modify fun s => { s with symbols := s.symbols.pushScope } : Lower PUnit) s =
      .ok (⟨⟩, { s with symbols := s.symbols.pushScope }) := rfl
  unfold Walks at h ⊢
  rw [walk_cons, bind_of_ok hpush]
  exact h

/-- A scope is closed that is not the outermost one. -/
theorem walks_leave (a : α) (h : s.symbols.enclosing ≠ []) : Walks span (do
    onSymbols fun t => return ((), ← t.popScope)
    return a) s [.leave] := by
  have hpop : ∃ t, s.symbols.popScope = .ok t := by
    unfold SymbolTable.popScope
    split
    · next hnil => exact absurd hnil h
    · exact ⟨_, rfl⟩
  obtain ⟨t, ht⟩ := hpop
  refine ⟨a, { s with symbols := t }, ?_, SymbolTable.names_popScope ht⟩
  have hrun : (onSymbols fun t => return ((), ← t.popScope)) s =
      .ok ((), { s with symbols := t }) := by
    unfold onSymbols
    dsimp only
    rw [ht]
    rfl
  exact bind_of_ok hrun

/-! ## Values and variables -/

theorem walks_writeHere (x : SymbolId) (v : Value) (hdraft : s.draft = σ.record.draft) :
    Walks span (writeHere x v) s [] := walks_onDraft hdraft ⟨_, _, rfl⟩

theorem isNumber_meet (a b : Ty) : (meet a b).IsNumber := by
  cases a <;> cases b <;> first | exact .inl rfl | exact .inr rfl

/-- Numbers can be converted into each other. -/
theorem walks_coerce {v : Value} {ty : Ty} (hdraft : s.draft = σ.record.draft)
    (hv : (σ.builder.ty v).IsNumber) (hty : ty.IsNumber) : Walks span (coerce v ty) s [] := by
  refine Walks.typeOf hdraft ?_
  split
  · exact walks_pure v
  · next hne =>
    rcases hv with hv | hv <;> rcases hty with rfl | rfl <;> rw [hv] at hne ⊢
    · exact absurd rfl hne
    · exact walks_emit hdraft _ _
    · exact walks_emit hdraft _ _
    · exact absurd rfl hne

/-- A number can be compared with 0. -/
theorem walks_truthy {v : Value} (hdraft : s.draft = σ.record.draft)
    (hv : (σ.builder.ty v).IsNumber) : Walks span (truthy v) s [] := by
  refine Walks.typeOf hdraft ?_
  rcases hv with hv | hv <;> rw [hv] <;> exact Walks.emit hdraft (walks_emit rfl _ _)

theorem walks_negate (v : Value) (hdraft : s.draft = σ.record.draft) :
    Walks span (negate v) s [] := by
  refine Walks.typeOf hdraft ?_
  split <;> exact Walks.emit hdraft (walks_emit rfl _ _)

theorem walks_infixOp (op : InfixOp) {lhs rhs : Value} (hdraft : s.draft = σ.record.draft)
    (hσ : σ.Ready) (hlhs : σ.Has σ.current lhs) (hrhs : σ.Has σ.current rhs)
    (hl : (σ.builder.ty lhs).IsNumber) (hr : (σ.builder.ty rhs).IsNumber) :
    Walks span (infixOp config op lhs rhs) s [] := by
  refine Walks.typeOf hdraft (Walks.typeOf hdraft ?_)
  have hmeet := isNumber_meet (σ.builder.ty lhs) (σ.builder.ty rhs)
  refine Walks.bind hdraft (walks_coerce hdraft hl hmeet) (leads_coerce lhs _) ?_
  rintro l σ₁ _ - ⟨hleft, rfl⟩
  have h₁ := hleft.gives hσ hlhs
  have hrhs₁ := h₁.keeps hσ hrhs
  have hr₁ : (σ₁.builder.ty rhs).IsNumber := by rwa [hrhs.ty hσ.sound h₁.advance.since.extends']
  refine Walks.bind rfl (walks_coerce rfl hr₁ hmeet) (leads_coerce rhs _) ?_
  rintro r σ₂ _ - ⟨hright, rfl⟩
  have h₂ := hright.gives h₁.ready hrhs₁
  split
  · exact Walks.emit rfl (walks_emit rfl _ _)
  · exact Walks.emit rfl (walks_emit rfl _ _)
  · exact walks_emit rfl _ _
  · refine Walks.onDraft rfl
      (Drafting.concurs_checkedDiv Searches.faithful_own config l h₂.ready h₂.has).succeeds
      (Drafting.leads_checkedDiv config l r σ₂) ?_
    rintro ⟨quotient, okay⟩ σ₃ -
    exact ⟨quotient, _, rfl, rfl⟩
  · exact walks_emit rfl _ _

/-! ## Calls -/

theorem checkArity_ok (name : String) (count : Nat) (s : State) :
    checkArity name count count s = .ok ((), s) := by
  rw [checkArity, if_pos rfl]
  rfl

theorem checkArity_error {name : String} {expected found : Nat} (h : found ≠ expected) (s : State) :
    checkArity name expected found s = .error (.ofCause (.arity name expected found)) := by
  rw [checkArity, if_neg h]
  rfl

/-- The values of the arguments are handed over. -/
theorem walks_handOver {name : String} {vs : List Value} (mayFault : Bool)
    (hdraft : s.draft = σ.record.draft) (hσ : σ.Ready) (hvs : ∀ u ∈ vs, σ.Has σ.current u) :
    Walks span (if mayFault then do
        let (result, _) ← onDraft (Drafting.invoke config name vs)
        return result
      else emit (.call name vs) .int) s [] := by
  cases mayFault with
  | false => exact walks_emit hdraft _ _
  | true =>
    refine Walks.onDraft hdraft (Drafting.concurs_invoke Searches.faithful_own config name hσ hvs).succeeds
      (Drafting.leads_invokeWith config name vs σ) ?_
    rintro ⟨result, sites⟩ σ' -
    exact walks_pure result

theorem callWith_of_error {name : String} {count : Nat} {values : Lower (List Value)}
    {e : LoweringError} (hpi : isPi name s = .ok (false, s))
    (h : s.symbols.findFunction name = .error e) : callWith config name count values s = .error e := by
  rw [callWith, bind_of_ok hpi]
  refine bind_of_error ?_
  rw [h]

theorem callWith_of_ok {name : String} {count arity : Nat} {values : Lower (List Value)}
    {id : SymbolId} {mayFault : Bool} (hpi : isPi name s = .ok (false, s))
    (h : s.symbols.findFunction name = .ok (id, arity, mayFault)) :
    callWith config name count values s = (do
      checkArity name arity count
      let vs ← values
      if mayFault then do
        let (result, _) ← onDraft (Drafting.invoke config name vs)
        return result
      else emit (.call name vs) .int : Lower Value) s := by
  rw [callWith, bind_of_ok hpi]
  refine bind_of_ok (a := (id, arity, mayFault)) ?_
  rw [h]

/-- Where no function hides it the ratio is called without arguments. -/
theorem walks_callPi {arguments : Tree} {values : Lower (List Value)}
    (hdraft : s.draft = σ.record.draft) (hspan : span.IsPlace)
    (hnone : arguments.items = [] → events = []) (hlookup : s.symbols.lookup? piName = none) :
    Walks span (callWith config piName arguments.items.length values) s
      (.call span piName arguments.items.length :: events) := by
  have hpi : isPi piName s = .ok (true, s) := by
    show Except.ok (piName = piName && (s.symbols.lookup? piName).isNone, s) = _
    simp [hlookup]
  have hfind := SymbolTable.find?_names s.symbols piName
  rw [hlookup] at hfind
  by_cases hcount : arguments.items.length = 0
  · rw [hnone (List.length_eq_zero_iff.1 hcount), hcount]
    refine Walks.passes (.after hpi rfl ?_) (by rw [NameEvent.violation?, hfind]; rfl) rfl
    exact Walks.after (checkArity_ok piName 0 s) rfl (walks_emit hdraft _ _)
  · refine walks_violates _ hspan ?_
      ((bind_of_ok hpi).trans (bind_of_error (checkArity_error hcount s)))
    rw [NameEvent.violation?, hfind]
    exact if_neg hcount

/-- A call of a function counts the arguments, and then evaluates them. -/
theorem walks_callFunction {name : String} {arguments : Tree} {values : Lower (List Value)}
    {id : SymbolId} {arity : Nat} {mayFault : Bool} (hdraft : s.draft = σ.record.draft)
    (hσ : σ.Ready) (hspan : span.IsPlace) (hvalues : Walks span values s events)
    (hleads : Leads values σ s fun vs σ' s' => ∃ b,
      Plan.Values config s.symbols (.args arguments.items) σ b vs σ' ∧
        s' = ⟨s.symbols, σ'.record.draft, s.mayFault || b⟩)
    (hnot : isPi name s = .ok (false, s))
    (hlookup : s.symbols.lookup? name = some ⟨id, .function arity mayFault⟩) :
    Walks span (callWith config name arguments.items.length values) s
      (.call span name arguments.items.length :: events) := by
  have hfind := SymbolTable.find?_names s.symbols name
  rw [hlookup] at hfind
  have hfound : s.symbols.findFunction name = .ok (id, arity, mayFault) := by
    rw [SymbolTable.findFunction, hlookup]
  by_cases hcount : arguments.items.length = arity
  · have hnone : (NameEvent.call span name arguments.items.length).violation? s.symbols.names =
        none := by
      rw [NameEvent.violation?, hfind]
      exact if_pos hcount
    -- The names of the call itself come first, those of the arguments after it.
    have hall : Walks span (do
        let vs ← values
        if mayFault then do
          let (result, _) ← onDraft (Drafting.invoke config name vs)
          return result
        else emit (.call name vs) .int : Lower Value) s (events ++ []) := by
      refine Walks.bind hdraft hvalues hleads ?_
      rintro vs σ₁ _ - ⟨b, hvs, rfl⟩
      obtain ⟨hready, -, hhas⟩ := hvs.gives hσ
      exact walks_handOver mayFault rfl hready hhas
    rw [List.append_nil] at hall
    subst hcount
    refine Walks.passes ?_ hnone rfl
    unfold Walks
    rw [callWith_of_ok hnot hfound, bind_of_ok (checkArity_ok ..)]
    exact hall
  · refine walks_violates _ hspan ?_
      ((callWith_of_ok hnot hfound).trans (bind_of_error (checkArity_error hcount s)))
    rw [NameEvent.violation?, hfind]
    exact if_neg hcount

/-- A call looks for its function before anything else. -/
theorem walks_callWith {name : String} {arguments : Tree} {values : Lower (List Value)}
    (hdraft : s.draft = σ.record.draft) (hσ : σ.Ready) (hspan : span.IsPlace)
    (hvalues : Walks span values s events) (hnone : arguments.items = [] → events = [])
    (hleads : Leads values σ s fun vs σ' s' => ∃ b,
      Plan.Values config s.symbols (.args arguments.items) σ b vs σ' ∧
        s' = ⟨s.symbols, σ'.record.draft, s.mayFault || b⟩) :
    Walks span (callWith config name arguments.items.length values) s
      (.call span name arguments.items.length :: events) := by
  have hpi : isPi name s = .ok (name = piName && (s.symbols.lookup? piName).isNone, s) := rfl
  have hfind := SymbolTable.find?_names s.symbols name
  cases hlookup : s.symbols.lookup? name with
  | none =>
    rw [hlookup] at hfind
    by_cases hname : name = piName
    · subst hname
      exact walks_callPi hdraft hspan hnone hlookup
    · refine walks_violates (.unknown .function name) hspan ?_
        (callWith_of_error (hpi.trans (by simp [hname])) ?_)
      · rw [NameEvent.violation?, hfind]
        exact if_neg hname
      · rw [SymbolTable.findFunction, hlookup]
  | some symbol =>
    obtain ⟨id, binding⟩ := symbol
    rw [hlookup] at hfind
    -- A name that stands for something does not stand for the ratio.
    have hnot : isPi name s = .ok (false, s) := by
      by_cases hname : name = piName
      · rw [hpi, ← hname, hlookup]
        simp
      · rw [hpi]
        simp [hname]
    cases binding with
    | var =>
      refine walks_violates (.unknown .function name) hspan ?_ (callWith_of_error hnot ?_)
      · rw [NameEvent.violation?, hfind]
        rfl
      · rw [SymbolTable.findFunction, hlookup]
    | function arity mayFault =>
      exact walks_callFunction hdraft hσ hspan hvalues hleads hnot hlookup

/-! ## Expressions -/

theorem walks_arguments {ts : List Tree} (h : ∀ t ∈ ts, ∀ span,
      Traverses opened span (expression config t) (NameEvent.ofExpression t))
    (hdraft : s.draft = σ.record.draft) (hfit : σ.Fit opened s.symbols) :
    Walks span (arguments config ts) s (NameEvent.ofExpressions ts) := by
  induction ts generalizing σ s with
  | nil => exact walks_pure []
  | cons first rest ih =>
    refine Walks.bind hdraft (h first (by simp) span hdraft hfit)
      (leads_expression config σ s first) ?_
    rintro v σ₁ _ - ⟨b, hv, rfl⟩
    have hfit₁ := hv.fit hfit
    have hgives := hv.givesOne hfit.ready
    refine Walks.bind_nil rfl
      (walks_coerce rfl (hv.numbers hfit v (by simp)) (.inl rfl)) (leads_coerce v .int) ?_
    rintro v' σ₂ _ - ⟨hcoerced, rfl⟩
    have hgives' := hcoerced.gives hgives.ready hgives.has
    have hfit₂ := hfit₁.quiet hgives'.ready hgives'.advance.behind hcoerced.silent
    exact Walks.result (v' :: ·) (ih (fun t ht => h t (by simp [ht])) rfl hfit₂)

/-- The lowering of an expression walks through its names. -/
theorem traverses_expression (config : FaultConfig) (opened : SymbolTable) {t : Tree}
    (ht : t.IsExpression) (outer : Span) :
    Traverses opened outer (expression config t) (NameEvent.ofExpression t) := by
  induction ht generalizing outer with
  | integer => exact fun hdraft _ => (walks_emit hdraft _ _).located outer
  | floating => exact fun hdraft _ => (walks_emit hdraft _ _).located outer
  | @ident span name hspan =>
    intro σ s hdraft hfit
    refine Walks.located ?_ outer
    have hleads : Leads (variableOf name) σ s fun x σ' s' =>
        s.symbols.findVariable name = .ok x ∧ σ' = σ ∧ s' = s :=
      leads_variableOf fun x h => ⟨h, rfl, rfl⟩
    refine Walks.bind_cons hdraft (walks_variableOf name hspan) hleads ?_
    rintro x _ _ - ⟨hfind, rfl, rfl⟩
    obtain ⟨ty, htype, -⟩ := hfit.readable hfind
    exact walks_onDraft hdraft (Drafting.concurs_readHere Searches.faithful_own hfit.ready.sound
      (by rw [htype]; rfl)).succeeds
  | @infixOp span op left right hspan _ _ ih₁ ih₂ =>
    intro σ s hdraft hfit
    refine Walks.located ?_ outer
    rw [show NameEvent.ofExpression (.node span (.infixOp op left right)) =
      NameEvent.ofExpression left ++ (NameEvent.ofExpression right ++ []) from
        congrArg _ (List.append_nil _).symm]
    refine Walks.bind hdraft (ih₁ span hdraft hfit) (leads_expression config σ s left) ?_
    rintro l σ₁ _ - ⟨b₁, hl, rfl⟩
    have hfit₁ := hl.fit hfit
    refine Walks.bind rfl (ih₂ span rfl hfit₁) (leads_expression config σ₁ _ right) ?_
    rintro r σ₂ _ - ⟨b₂, hr, rfl⟩
    have hgives := hl.givesOne hfit.ready
    have hgives' := hr.givesOne hfit₁.ready
    refine walks_infixOp op rfl hgives'.ready (hgives'.keeps hgives.ready hgives.has) hgives'.has
      ?_ (hr.numbers hfit₁ r (by simp))
    rw [hgives.has.ty hgives.ready.sound hgives'.advance.since.extends']
    exact hl.numbers hfit l (by simp)
  | @negate span operand hspan _ ih =>
    intro σ s hdraft hfit
    refine Walks.located ?_ outer
    rw [show NameEvent.ofExpression (.node span (.negate operand)) =
      NameEvent.ofExpression operand ++ [] from (List.append_nil _).symm]
    refine Walks.bind hdraft (ih span hdraft hfit) (leads_expression config σ s operand) ?_
    rintro v σ₁ _ - ⟨b, hv, rfl⟩
    exact walks_negate v rfl
  | @call span name listSpan items hspan _ ih =>
    intro σ s hdraft hfit
    refine Walks.located ?_ outer
    refine walks_callWith hdraft hfit.ready hspan ?_ ?_
      (leads_argumentItems config σ s (.node listSpan (.list items)))
    · exact walks_arguments ih hdraft hfit
    · rintro h
      obtain rfl : items = [] := h
      rfl

/-- An expression comes first in every statement. -/
theorem Walks.value {value : Tree} {next : Value → Lower β} (hvalue : value.IsExpression)
    (hdraft : s.draft = σ.record.draft) (hfit : σ.Fit opened s.symbols)
    (hnext : ∀ v σ₁ b, Plan.Values config s.symbols (.expr value) σ b [v] σ₁ →
      Walks span (next v) ⟨s.symbols, σ₁.record.draft, s.mayFault || b⟩ events) :
    Walks span (expression config value >>= next) s (NameEvent.ofExpression value ++ events) := by
  refine Walks.bind hdraft (traverses_expression config opened hvalue span hdraft hfit)
    (leads_expression config σ s value) ?_
  rintro v σ₁ _ - ⟨b, hv, rfl⟩
  exact hnext v σ₁ b hv

/-! ## Statements -/

theorem walks_statements {ts : List Tree} (h : ∀ t ∈ ts, ∀ span,
      Traverses opened span (statement config t) (NameEvent.ofStatement t))
    (hdraft : s.draft = σ.record.draft) (hfit : σ.Fit opened s.symbols) :
    Walks span (statements config ts) s (NameEvent.ofStatements ts) := by
  induction ts generalizing σ s with
  | nil => exact walks_pure ()
  | cons first rest ih =>
    refine Walks.bind hdraft (h first (by simp) span hdraft hfit)
      (leads_statement config hfit.ready s first) ?_
    rintro r σ₁ _ - ⟨b, symbols, hfirst, rfl⟩
    exact ih (fun t ht => h t (by simp [ht])) rfl (hfirst.fit hfit)

/-- Statements leave the enclosing scopes. -/
theorem enclosing_ne_nil {ts : List Tree} {b : Bool} {r : Option Value} {symbols symbols' : SymbolTable}
    (h : Plan.Statements config (.all ts) symbols.pushScope σ b r symbols' σ₁)
    (hfit : σ.Fit opened symbols) : symbols'.enclosing ≠ [] := by
  rw [(h.kept hfit.ready hfit.knows.pushScope).grown.enclosing]
  exact List.cons_ne_nil _ _

/-- The statements of a body have a scope of their own. -/
theorem traverses_body {ts : List Tree} (bodySpan : Span) (h : ∀ t ∈ ts, ∀ span,
      Traverses opened span (statement config t) (NameEvent.ofStatement t)) :
    Traverses opened span (inScope (items config (.node bodySpan (.list ts))))
      (NameEvent.enclosed (NameEvent.ofStatements ts)) := by
  intro σ s hdraft hfit
  refine Walks.enter ?_
  refine Walks.bind hdraft (walks_statements h hdraft hfit.pushScope)
    (leads_items config hfit.ready _ (.node bodySpan (.list ts))) ?_
  rintro ⟨⟩ σ₁ _ - ⟨b, r, symbols, hitems, rfl⟩
  exact walks_leave () (enclosing_ne_nil hitems hfit)

/-- One of two bodies is run. -/
theorem walks_ifElse {v : Value} {thenBody elseBody : Lower Unit} {thenItems elseItems : List Tree}
    {thenEvents elseEvents : List NameEvent} (hdraft : s.draft = σ.record.draft)
    (hfit : σ.Fit opened s.symbols) (hv : σ.Has σ.current v) (hnumber : (σ.builder.ty v).IsNumber)
    (hthen : Body config thenItems thenBody) (helse : Body config elseItems elseBody)
    (hwalksThen : Traverses opened span thenBody thenEvents)
    (hwalksElse : Traverses opened span elseBody elseEvents) :
    Walks span (ifElse v thenBody elseBody) s (thenEvents ++ elseEvents) := by
  refine Walks.bind_nil hdraft (walks_truthy hdraft hnumber) (leads_truthy v) ?_
  rintro test σ₂ _ - ⟨htested, rfl⟩
  have htest := htested.gives hfit.ready hv
  have hfit₂ := hfit.quiet htest.ready htest.advance.behind htested.silent
  refine Walks.onDraft rfl
    (Drafting.concurs_split Searches.faithful_own htest.ready htest.has).succeeds
    (Drafting.leads_split test σ₂) ?_
  rintro ⟨elseBlock, join⟩ σ₃ ⟨hblocks, hsplit⟩
  cases hblocks
  -- The body that is run when the condition holds, in the first of the new blocks.
  obtain ⟨hfirst, hfit₃⟩ := hfit₂.thenBody htest.has hsplit
  refine Walks.bind rfl (hwalksThen rfl hfit₃) (hthen σ₃ _ hfirst.ready) ?_
  rintro ⟨⟩ σ₄ _ - ⟨b₂, r₂, symbols₁, symbols₂, hitems₁, hpop₁, rfl⟩
  obtain ⟨hsecond, hfit₅⟩ := hfit₂.elseBody hfirst hfit₃.pushScope hitems₁
    (hitems₁.fit hfit₃.pushScope) hpop₁
  refine Walks.onDraft rfl ⟨_, _, rfl⟩ (Drafting.leads_terminate _ σ₄) ?_
  rintro ⟨⟩ _ rfl
  refine Walks.onDraft rfl ⟨_, _, rfl⟩ (Drafting.leads_setCurrent _ _ (σ₂.spine σ₂.current)) ?_
  rintro ⟨⟩ _ rfl
  -- The other body, from the condition on; the joining block knows no names.
  rw [← List.append_nil elseEvents]
  refine Walks.bind rfl (hwalksElse (σ := Plan.switch σ₂ σ₄) rfl hfit₅) (helse _ _ hsecond.ready) ?_
  rintro ⟨⟩ σ₅ _ - ⟨b₃, r₃, symbols₃, symbols₄, hitems₂, hpop₂, rfl⟩
  obtain ⟨hready₅, hadvance₅, -⟩ := hitems₂.advance hsecond.ready
  refine Walks.onDraft rfl ⟨_, _, rfl⟩ (Drafting.leads_terminate _ σ₅) ?_
  rintro ⟨⟩ _ rfl
  exact walks_onDraft rfl
    (Drafting.concurs_joinWays Searches.faithful_own hsecond hready₅ hadvance₅).succeeds

/-- A variable counts up, in a scope around the body. -/
theorem walks_forLoop {index : String} {limit : Value} {body : Lower Unit} {ts : List Tree}
    {bodyEvents : List NameEvent} (hdraft : s.draft = σ.record.draft)
    (hfit : σ.Fit opened s.symbols) (hlimit : σ.Has σ.current limit) (hspan : span.IsPlace)
    (hbody : Body config ts body) (hwalks : Traverses opened span body bodyEvents) :
    Walks span (forLoop index limit body) s
      (NameEvent.enclosed (.define span index .var :: bodyEvents)) := by
  unfold forLoop inScope
  refine Walks.enter ?_
  simp only [bind_assoc]
  -- The index is the first name of the scope around the loop.
  refine Walks.bind_cons hdraft (walks_define index .var hspan) (leads_define index) ?_
  rintro x σ _ - ⟨symbols₁, hdefine, rfl, rfl⟩
  refine Walks.bind_nil hdraft (walks_onDraft hdraft ⟨_, _, rfl⟩) (leads_declare x .int) ?_
  rintro ⟨⟩ _ _ - ⟨rfl, rfl⟩
  refine Walks.emit rfl ?_
  refine Walks.bind_nil rfl (walks_writeHere x _ rfl) (leads_writeHere x _) ?_
  rintro ⟨⟩ σ₂ _ - ⟨hσ₂, rfl⟩
  obtain rfl : σ₂ = Plan.countFrom σ x := hσ₂
  have hfit₂ := hfit.pushScope.countFrom hdefine
  obtain ⟨-, hadvance₂⟩ := Plan.advance_countFrom hfit.ready x
  have hlimit₂ := hadvance₂.has hfit.ready.sound hlimit
  have hx := hfit₂.knows.written _ (SymbolTable.entries_define hdefine ▸ List.mem_cons_self) rfl
  have htype := hfit.pushScope.type_countFrom hdefine
  refine Walks.onDraft rfl
    (Drafting.concurs_loopHead Searches.faithful_own hfit₂.ready hlimit₂ (by rw [htype]; rfl)).succeeds
    (Drafting.leads_loopHead x limit _) ?_
  rintro ⟨header, bodyEnd, exit⟩ σ₃ ⟨hblocks, hhead⟩
  cases hblocks
  -- The body, in the first of the three blocks; what counts up after it knows no names.
  obtain ⟨hloop, hfit₃⟩ := hfit₂.loopBody hlimit₂ hx hhead
  refine Walks.bind rfl (hwalks rfl hfit₃) (hbody σ₃ _ hloop.ready) ?_
  rintro ⟨⟩ σ₄ _ - ⟨b, r, symbols₂, symbols₃, hitems, hpop, rfl⟩
  obtain ⟨hready₄, hadvance₄, -⟩ := hitems.advance hloop.ready
  have htype₄ := (hloop.behind.trans hadvance₄.behind).extends'.type htype
  have hgrown := (hitems.kept hloop.ready hfit₃.knows.pushScope).grown.popScope hpop
  refine Walks.onDraft rfl ⟨_, _, rfl⟩ (Drafting.leads_terminate _ σ₄) ?_
  rintro ⟨⟩ _ rfl
  refine Walks.onDraft rfl
    (Drafting.concurs_loopTail Searches.faithful_own hfit₂.ready hloop hready₄ hadvance₄
      (by rw [htype₄]; rfl)).succeeds
    (Drafting.leads_loopTail x hloop hready₄ hadvance₄) fun _ σ' _ => ?_
  refine walks_leave () ?_
  show symbols₃.enclosing ≠ []
  rw [hgrown.enclosing, (SymbolTable.Grown.define hdefine).enclosing]
  exact List.cons_ne_nil _ _

theorem walks_introduce {name : String} (ty : Ty) (v : Value) (hdraft : s.draft = σ.record.draft)
    (hspan : span.IsPlace) : Walks span (introduce name ty v) s [.define span name .var] := by
  refine Walks.bind_cons hdraft (walks_define name .var hspan)
    (leads_define name) ?_
  rintro x σ _ - ⟨symbols, -, rfl, rfl⟩
  refine Walks.bind_nil hdraft (walks_onDraft hdraft ⟨_, _, rfl⟩) (leads_declare x _) ?_
  rintro ⟨⟩ _ _ - ⟨rfl, rfl⟩
  exact Walks.result (fun _ => x) (walks_writeHere x v rfl)

theorem walks_assign {name : String} {v : Value} (hdraft : s.draft = σ.record.draft)
    (hfit : σ.Fit opened s.symbols) (hv : (σ.builder.ty v).IsNumber) (hspan : span.IsPlace) :
    Walks span (assign name v) s [.use span name] := by
  have hleads : Leads (variableOf name) σ s fun x σ' s' =>
      s.symbols.findVariable name = .ok x ∧ σ' = σ ∧ s' = s :=
    leads_variableOf fun x h => ⟨h, rfl, rfl⟩
  refine Walks.bind_cons hdraft (walks_variableOf name hspan) hleads ?_
  rintro x σ s - ⟨hfind, rfl, rfl⟩
  obtain ⟨ty, htype, hty⟩ := hfit.readable hfind
  have hget : (get : Lower State) s = .ok (s, s) := rfl
  refine Walks.after hget rfl ?_
  rw [hdraft, htype]
  refine Walks.bind_nil hdraft (walks_coerce hdraft hv hty) (leads_coerce v ty) ?_
  rintro v' σ₁ _ - ⟨-, rfl⟩
  exact walks_writeHere x v' rfl

/-- The lowering of a statement walks through its names. -/
theorem traverses_statement (config : FaultConfig) (opened : SymbolTable) {t : Tree}
    (ht : t.IsStatement) (outer : Span) :
    Traverses opened outer (statement config t) (NameEvent.ofStatement t) := by
  induction ht generalizing outer with
  | @letVar span name value hspan hvalue =>
    intro σ s hdraft hfit
    refine (Walks.value hvalue hdraft hfit fun v σ₁ b hv => ?_).located outer
    exact Walks.typeOf (σ := σ₁) rfl (.result (fun _ => none) (walks_introduce _ v rfl hspan))
  | @setVar span name value hspan hvalue =>
    intro σ s hdraft hfit
    refine (Walks.value hvalue hdraft hfit fun v σ₁ b hv => ?_).located outer
    exact .result (fun _ => none)
      (walks_assign rfl (hv.fit hfit) (hv.numbers hfit v (by simp)) hspan)
  | @giveBack span value hspan hvalue =>
    intro σ s hdraft hfit
    refine Walks.located ?_ outer
    rw [show NameEvent.ofStatement (.node span (.giveBack value)) =
      NameEvent.ofExpression value ++ [] from (List.append_nil _).symm]
    refine Walks.value hvalue hdraft hfit fun v σ₁ b hv => ?_
    have hgives := hv.givesOne hfit.ready
    refine Walks.bind_nil rfl
      (walks_coerce rfl (hv.numbers hfit v (by simp)) (.inl rfl)) (leads_coerce v .int) ?_
    rintro v' σ₂ _ - ⟨hcoerced, rfl⟩
    have hgives' := hcoerced.gives hgives.ready hgives.has
    exact .result (fun _ => none)
      (walks_onDraft rfl
        (Drafting.concurs_giveBack Searches.faithful_own hgives'.ready hgives'.has).succeeds)
  | @ifThen span condition thenSpan thenItems hspan hcondition _ ih =>
    intro σ s hdraft hfit
    refine (Walks.value hcondition hdraft hfit fun v σ₁ b hv => ?_).located outer
    rw [← List.append_nil (NameEvent.enclosed _)]
    exact .result (fun _ => none) (walks_ifElse rfl (hv.fit hfit) (hv.givesOne hfit.ready).has
      (hv.numbers hfit v (by simp)) (body_inScope fun σ s hσ => leads_items config hσ s _)
      (body_nothing config) (traverses_body thenSpan ih) fun _ _ => walks_pure ())
  | @ifElse span condition thenSpan thenItems elseSpan elseItems hspan hcondition _ _ ih₁ ih₂ =>
    intro σ s hdraft hfit
    refine Walks.located ?_ outer
    rw [show NameEvent.ofStatement (.node span (.ifElse condition (.node thenSpan (.list thenItems))
        (some (.node elseSpan (.list elseItems))))) = NameEvent.ofExpression condition ++
          (NameEvent.enclosed (NameEvent.ofStatements thenItems) ++
            NameEvent.enclosed (NameEvent.ofStatements elseItems)) from List.append_assoc ..]
    refine Walks.value hcondition hdraft hfit fun v σ₁ b hv => ?_
    exact .result (fun _ => none) (walks_ifElse rfl (hv.fit hfit) (hv.givesOne hfit.ready).has
      (hv.numbers hfit v (by simp)) (body_inScope fun σ s hσ => leads_items config hσ s _)
      (body_inScope fun σ s hσ => leads_items config hσ s _) (traverses_body thenSpan ih₁)
      (traverses_body elseSpan ih₂))
  | @forLoop span index bound bodySpan ts hspan hbound _ ih =>
    intro σ s hdraft hfit
    refine (Walks.value hbound hdraft hfit fun v σ₁ b hv => ?_).located outer
    have hgives := hv.givesOne hfit.ready
    refine Walks.bind_nil rfl
      (walks_coerce rfl (hv.numbers hfit v (by simp)) (.inl rfl)) (leads_coerce v .int) ?_
    rintro limit σ₂ _ - ⟨hcoerced, rfl⟩
    have hgives' := hcoerced.gives hgives.ready hgives.has
    have hfit' := (hv.fit hfit).quiet hgives'.ready hgives'.advance.behind hcoerced.silent
    exact .result (fun _ => none) (walks_forLoop rfl hfit' hgives'.has hspan
      (body_inScope fun σ s hσ => leads_items config hσ s _) (traverses_body bodySpan ih))
  | @expression t ht =>
    intro σ s hdraft hfit
    have hevaluated : Walks outer (located t.span do return some (← expression config t)) s
        (NameEvent.ofExpression t) :=
      (Walks.result some (traverses_expression config opened ht t.span hdraft hfit)).located outer
    cases ht <;> exact hevaluated

/-- The value of the last of some statements is looked for on the way. -/
theorem walks_statementsValue {ts : List Tree} (h : ∀ t ∈ ts, t.IsStatement)
    (hdraft : s.draft = σ.record.draft) (hfit : σ.Fit opened s.symbols) :
    Walks span (statementsValue config ts) s (NameEvent.ofStatements ts) := by
  induction ts generalizing σ s with
  | nil => exact walks_pure none
  | cons first rest ih =>
    refine Walks.bind hdraft (traverses_statement config opened (h first (by simp)) span hdraft hfit)
      (leads_statement config hfit.ready s first) ?_
    rintro v? σ₁ _ - ⟨b, symbols, hfirst, rfl⟩
    exact .result (· <|> v?) (ih (fun t ht => h t (by simp [ht])) rfl (hfirst.fit hfit))

/-! ## Bodies of functions -/

/-- The parameters of a function are defined one after the other. -/
theorem walks_parameters (names : List String) (i : Nat) (hspan : span.IsPlace)
    (hdraft : s.draft = σ.record.draft) (hcurrent : σ.current = Flow.Function.entry) (outer : Span) :
    Walks outer (parameters span names i) s (names.map (.define span · .var)) := by
  induction names generalizing i σ s with
  | nil => exact walks_pure ()
  | cons name names ih =>
    refine Walks.bind_cons hdraft ((walks_define name .var hspan).located outer)
      ((leads_define name).located span) ?_
    rintro x σ _ - ⟨symbols, -, rfl, rfl⟩
    refine Walks.onDraft hdraft ⟨_, _, rfl⟩ (Drafting.leads_declare x .int σ) ?_
    rintro ⟨⟩ _ rfl
    have hwrite := Drafting.leads_write x ⟨i⟩ (σ.declare x .int)
    rw [show (σ.declare x .int).current = Flow.Function.entry from hcurrent] at hwrite
    refine Walks.onDraft rfl ⟨_, _, rfl⟩ hwrite ?_
    rintro ⟨⟩ _ rfl
    exact ih (i + 1) rfl hcurrent

/-- The body of a definition walks through its parameters and its statements. -/
theorem walks_definition {name : String} {names : List String} {bodySpan : Span} {ts : List Tree}
    (hts : ∀ t ∈ ts, t.IsStatement) (hspan : span.IsPlace) (hdraft : s.draft = σ.record.draft)
    (hopens : Plan.Opens name names.length σ) (hglobal : s.symbols.Global) (outer : Span) :
    Walks outer (inScope do
      parameters span names 0
      items config (.node bodySpan (.list ts))) s
      (NameEvent.enclosed (names.map (.define span · .var) ++ NameEvent.ofStatements ts)) := by
  have hfit := hopens.fit hglobal
  have hbegun := hopens.begun
  have hall : ∀ k < 0 + names.length, σ.Has σ.current ⟨k⟩ ∧ σ.builder.ty ⟨k⟩ = .int := fun k hk =>
    ⟨hbegun.current ▸ hbegun.params k (by omega), hopens.fresh.params k (by omega)⟩
  unfold inScope
  refine Walks.enter ?_
  simp only [bind_assoc]
  rw [List.append_eq, List.append_assoc]
  have hdraft₀ : State.draft { s with symbols := s.symbols.pushScope } = σ.record.draft := hdraft
  refine Walks.bind hdraft (walks_parameters names 0 hspan hdraft₀ hbegun.current outer)
    (leads_parameters span names 0 hbegun.current) ?_
  rintro ⟨⟩ σ₁ _ - ⟨symbols₁, hparams, rfl⟩
  have hfit₁ := hparams.fit hfit.pushScope hall
  refine Walks.bind rfl (walks_statements (fun t ht => traverses_statement config s.symbols (hts t ht))
    rfl hfit₁) (leads_items config hfit₁.ready _ (.node bodySpan (.list ts))) ?_
  rintro ⟨⟩ σ₂ _ - ⟨b, r, symbols₂, hitems, rfl⟩
  refine walks_leave () ?_
  show symbols₂.enclosing ≠ []
  have hkept : Plan.Kept config _ σ _ σ₁ _ false := hparams.kept hbegun.ready hfit.pushScope.knows hall
  rw [(hitems.kept hfit₁.ready hfit₁.knows).grown.enclosing, hkept.grown.enclosing]
  exact List.cons_ne_nil _ _

/-- So do the top-level statements of a unit. -/
theorem walks_topLevel {ts : List Tree} (hts : ∀ t ∈ ts, t.IsStatement)
    (hdraft : s.draft = σ.record.draft) (hfit : σ.Fit opened s.symbols) :
    Walks span (inScope (statementsValue config ts)) s
      (NameEvent.enclosed (NameEvent.ofStatements ts)) := by
  refine Walks.enter ?_
  refine Walks.bind hdraft (walks_statementsValue hts hdraft hfit.pushScope)
    (leads_statementsValue config hfit.ready _ ts) ?_
  rintro r σ₁ _ - ⟨b, symbols, hitems, rfl⟩
  exact walks_leave r (enclosing_ne_nil hitems hfit)

end Abacus.Lowering.Lower
