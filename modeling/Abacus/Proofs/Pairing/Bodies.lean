import Abacus.Lowering.Statement
import Abacus.Proofs.Naming.Walk
import Abacus.Proofs.Pairing.Drafts
import Abacus.Proofs.Tree.Unplaced

/-!
# Bodies that are lowered at different places

The same expressions and statements, at different places of a text and with other identities for
their symbols, are lowered to the same instructions in the same blocks. Of the functions that are
known outside of the body only those matter that the body calls.

* `SymbolTable.Paired`, `State.Paired` — the names in scope stand for the same, as far as they matter
  in a body;
* `Lower.Agrees` — two pieces of work have related results in paired states, or fail for the same
  cause;
* `Lower.agrees_expression`, `Lower.agrees_statement` — a tree and the tree without places.
-/

namespace Abacus.Lowering

open Abacus.Flow (Value Block Ty Inst)

variable {π : Pairing} {x x' : SymbolId}

/-! ## Names in scope -/

/-- The symbols stand for the same, and are paired if they are variables. -/
structure Symbol.Paired (π : Pairing) (s s' : Symbol) : Prop where
  binding : s.binding = s'.binding
  var : s.binding = .var → π.pairs s.id s'.id

/-- The names of the scopes stand for the same. -/
def Scope.Paired (π : Pairing) (scope scope' : Scope) : Prop :=
  ∀ name, Option.Rel (Symbol.Paired π) (scope.lookup name) (scope'.lookup name)

/-- No name of the scope is a variable. -/
def Scope.OfFunctions (scope : Scope) : Prop :=
  ∀ name, ∀ s ∈ scope.lookup name, s.binding ≠ .var

/-- The scopes around all bodies define functions only. Those that may be called stand for the same. -/
structure Scope.PairedOutermost (π : Pairing) (scope scope' : Scope) : Prop where
  called : ∀ name, π.called name →
    Option.Rel (Symbol.Paired π) (scope.lookup name) (scope'.lookup name)
  functions : scope.OfFunctions ∧ scope'.OfFunctions

/-- Scopes that enclose others: the names of those inside stand for the same, and around them is a
scope of functions. -/
inductive Scope.AllPaired (π : Pairing) : List Scope → List Scope → Prop
  | outermost {scope scope'} : Scope.PairedOutermost π scope scope' →
      AllPaired π [scope] [scope']
  | inside {scope scope' rest rest'} : Scope.Paired π scope scope' → AllPaired π rest rest' →
      AllPaired π (scope :: rest) (scope' :: rest')

/-- The scopes inside a function are paired, and the symbols that are defined next will be. -/
structure SymbolTable.Paired (π : Pairing) (t t' : SymbolTable) : Prop where
  innermost : Scope.Paired π t.innermost t'.innermost
  enclosing : Scope.AllPaired π t.enclosing t'.enclosing
  fresh : ∀ i, π.pairs ⟨t.fresh + i⟩ ⟨t'.fresh + i⟩

/-- There is one scope, of functions, and the symbols that are defined next will be paired. -/
structure SymbolTable.PairedOutermost (π : Pairing) (t t' : SymbolTable) : Prop where
  innermost : Scope.PairedOutermost π t.innermost t'.innermost
  enclosing : t.enclosing = [] ∧ t'.enclosing = []
  fresh : ∀ i, π.pairs ⟨t.fresh + i⟩ ⟨t'.fresh + i⟩

/-- What a name stands for in two runs: the same; or no variable, if it is not called. -/
def Symbol.Alike (π : Pairing) (name : String) (s? s'? : Option Symbol) : Prop :=
  Option.Rel (Symbol.Paired π) s? s'? ∨
    ¬ π.called name ∧ (∀ s ∈ s?, s.binding ≠ .var) ∧ ∀ s ∈ s'?, s.binding ≠ .var

theorem Scope.AllPaired.lookup? {scopes scopes' : List Scope} (h : Scope.AllPaired π scopes scopes')
    (name : String) : Symbol.Alike π name (scopes.findSome? (List.lookup name))
      (scopes'.findSome? (List.lookup name)) := by
  induction h with
  | @outermost scope scope' h =>
    rw [List.findSome?_singleton, List.findSome?_singleton]
    by_cases hcalled : π.called name
    · exact .inl (h.called name hcalled)
    · exact .inr ⟨hcalled, h.functions.1 name, h.functions.2 name⟩
  | @inside scope scope' rest rest' hscope _ ih =>
    have hname := hscope name
    rw [List.findSome?_cons, List.findSome?_cons]
    generalize scope.lookup name = s?, scope'.lookup name = s'? at hname
    cases hname with
    | some hs => exact .inl (.some hs)
    | none => exact ih

namespace SymbolTable.Paired

variable {t t' : SymbolTable}

theorem scopes (h : t.Paired π t') : Scope.AllPaired π t.scopes t'.scopes :=
  .inside h.innermost h.enclosing

theorem lookup? (h : t.Paired π t') (name : String) :
    Symbol.Alike π name (t.lookup? name) (t'.lookup? name) := h.scopes.lookup? name

theorem pushScope (h : t.Paired π t') : t.pushScope.Paired π t'.pushScope :=
  ⟨fun _ => .none, h.scopes, h.fresh⟩

theorem define (h : t.Paired π t') (name : String) (binding : Binding) :
    Agree (fun r r' => π.pairs r.1 r'.1 ∧ r.2.Paired π r'.2 ∧ r.2.enclosing = t.enclosing ∧
      r'.2.enclosing = t'.enclosing) (t.define name binding) (t'.define name binding) := by
  have hlookup := h.innermost name
  unfold SymbolTable.define
  generalize t.innermost.lookup name = s?, t'.innermost.lookup name = s'? at hlookup
  cases hlookup with
  | some => exact agree_same
  | none =>
    have hnew : π.pairs ⟨t.fresh⟩ ⟨t'.fresh⟩ := h.fresh 0
    refine .ok ⟨hnew, ⟨fun other => ?_, h.enclosing, fun i => ?_⟩, rfl, rfl⟩
    · dsimp only
      rw [List.lookup_cons, List.lookup_cons]
      cases other == name with
      | true => exact .some ⟨rfl, fun _ => hnew⟩
      | false => exact h.innermost other
    · dsimp only
      rw [Nat.add_assoc, Nat.add_assoc]
      exact h.fresh (1 + i)

theorem findVariable (h : t.Paired π t') (name : String) :
    Agree π.pairs (t.findVariable name) (t'.findVariable name) := by
  have hlookup := h.lookup? name
  have hnone : ∀ {t : SymbolTable}, (∀ s ∈ t.lookup? name, s.binding ≠ .var) →
      t.findVariable name = .error (.ofCause (.unknown .var name)) := by
    intro t ht
    unfold SymbolTable.findVariable
    split
    · next heq => exact absurd rfl (ht _ heq)
    · rfl
  rcases hlookup with hlookup | ⟨-, hfirst, hsecond⟩
  · unfold SymbolTable.findVariable
    generalize t.lookup? name = s?, t'.lookup? name = s'? at hlookup
    cases hlookup with
    | none => exact agree_same
    | @some s s' hs =>
      obtain ⟨id, binding⟩ := s
      obtain ⟨id', binding'⟩ := s'
      obtain rfl : binding = binding' := hs.binding
      cases binding with
      | var => exact .ok (hs.var rfl)
      | function => exact agree_same
  · rw [hnone hfirst, hnone hsecond]
    exact agree_same

theorem findFunction (h : t.Paired π t') {name : String} (hcalled : π.called name) :
    Agree (fun r r' => r.2 = r'.2) (t.findFunction name) (t'.findFunction name) := by
  have hlookup := (h.lookup? name).resolve_right fun hno => hno.1 hcalled
  unfold SymbolTable.findFunction
  generalize t.lookup? name = s?, t'.lookup? name = s'? at hlookup
  cases hlookup with
  | none => exact agree_same
  | @some s s' hs =>
    obtain ⟨id, binding⟩ := s
    obtain ⟨id', binding'⟩ := s'
    obtain rfl : binding = binding' := hs.binding
    cases binding with
    | var => exact agree_same
    | function => exact .ok rfl

end SymbolTable.Paired

theorem SymbolTable.PairedOutermost.pushScope {t t' : SymbolTable} (h : t.PairedOutermost π t') :
    t.pushScope.Paired π t'.pushScope := by
  refine ⟨fun _ => .none, ?_, h.fresh⟩
  unfold SymbolTable.pushScope SymbolTable.scopes
  rw [h.enclosing.1, h.enclosing.2]
  exact .outermost h.innermost

/-! ## Pieces of work that agree -/

/-- The states are the same but for places and identities of symbols. -/
structure State.Paired (π : Pairing) (s s' : State) : Prop where
  symbols : s.symbols.Paired π s'.symbols
  draft : s.draft.Paired π s'.draft
  mayFault : s.mayFault = s'.mayFault

/-- The states are the same outside of the scopes of a body. -/
structure State.PairedOutermost (π : Pairing) (s s' : State) : Prop where
  symbols : s.symbols.PairedOutermost π s'.symbols
  draft : s.draft.Paired π s'.draft
  mayFault : s.mayFault = s'.mayFault

/-- From `s` and `s'` work has come to `t` and `t'`, which are paired. The scopes around the innermost
one are what they were. -/
structure State.Stays (π : Pairing) (s s' t t' : State) : Prop where
  paired : t.Paired π t'
  enclosing : t.symbols.enclosing = s.symbols.enclosing
  enclosing' : t'.symbols.enclosing = s'.symbols.enclosing

theorem State.Paired.stays {s s' : State} (h : s.Paired π s') : s.Stays π s' s s' := ⟨h, rfl, rfl⟩

theorem State.Stays.trans {s s' t t' u u' : State} (h : s.Stays π s' t t') (hlater : t.Stays π t' u u') :
    s.Stays π s' u u' :=
  ⟨hlater.paired, hlater.enclosing.trans h.enclosing, hlater.enclosing'.trans h.enclosing'⟩

theorem LoweringError.cause_locate (e : LoweringError) (span : Span) :
    (e.locate span).cause = e.cause := by
  unfold locate
  split <;> rfl

namespace Lower

variable {α β γ δ : Type} {R : α → β → Prop} {S : γ → δ → Prop} {config : FaultConfig}

/-- In any two paired states the two pieces of work have related results, and the states are paired
afterwards, or both fail, for causes that are alike. -/
def Agrees (π : Pairing) (R : α → β → Prop) (work : Lower α) (work' : Lower β) : Prop :=
  ∀ s s', s.Paired π s' →
    Agree (fun r r' => R r.1 r'.1 ∧ s.Stays π s' r.2 r'.2) (work s) (work' s')

theorem Agrees.bind {work : Lower α} {work' : Lower β} {f : α → Lower γ} {g : β → Lower δ}
    (h : Agrees π R work work') (hnext : ∀ a b, R a b → Agrees π S (f a) (g b)) :
    Agrees π S (work >>= f) (work' >>= g) := by
  refine fun s s' hs => (h s s' hs).bind fun r r' hr => ?_
  refine (hnext _ _ hr.1 _ _ hr.2.paired).imp fun _ _ hlater => ?_
  exact ⟨hlater.1, hr.2.trans hlater.2⟩

/-- The results of the first work are the same. -/
theorem Agrees.then {work work' : Lower α} {f : α → Lower γ} {g : α → Lower δ}
    (h : Agrees π Eq work work') (hnext : ∀ a, Agrees π S (f a) (g a)) :
    Agrees π S (work >>= f) (work' >>= g) :=
  h.bind fun a _ hab => hab ▸ hnext a

theorem agrees_pure {a : α} {b : β} (h : R a b) : Agrees π R (pure a) (pure b) :=
  fun _ _ hs => .ok ⟨h, hs.stays⟩

theorem agrees_throw (e : LoweringError) : Agrees π R (throw e) (throw e) :=
  fun _ _ _ => agree_same

/-- Where the work stands does not matter. -/
theorem Agrees.located {work : Lower α} {work' : Lower β} (h : Agrees π R work work')
    (span span' : Span) : Agrees π R (located span work) (located span' work') := by
  intro s s' hs
  have hwork := h s s' hs
  unfold Lower.located
  generalize work s = r, work' s' = r' at hwork
  cases hwork with
  | ok hr => exact .ok hr
  | error he =>
    refine .error ?_
    rwa [LoweringError.cause_locate, LoweringError.cause_locate]

theorem onDraft_apply (work : Drafting α) (s : State) :
    onDraft work s = (work.outcome s.draft).map fun r => (r.1, { s with draft := r.2 }) := by
  unfold onDraft Drafting.outcome
  rcases work.on s.draft with ⟨e | a, d⟩ <;> rfl

/-- In any two states with paired drafts the two pieces of work have related results, and the drafts
are paired afterwards, or both fail, for causes that are alike. The rest of the states stays as it
is. -/
def Builds (π : Pairing) (R : α → β → Prop) (work : Lower α) (work' : Lower β) : Prop :=
  ∀ s s', s.draft.Paired π s'.draft → Agree (fun r r' => R r.1 r'.1 ∧ ∃ d d', d.Paired π d' ∧
    r.2 = { s with draft := d } ∧ r'.2 = { s' with draft := d' }) (work s) (work' s')

theorem Builds.agrees {work : Lower α} {work' : Lower β} (h : Builds π R work work') :
    Agrees π R work work' := by
  refine fun s s' hs => (h s s' hs.draft).imp ?_
  rintro ⟨a, _⟩ ⟨b, _⟩ ⟨hab, d, d', hd, rfl, rfl⟩
  exact ⟨hab, ⟨hs.symbols, hd, hs.mayFault⟩, rfl, rfl⟩

theorem Builds.then {work work' : Lower α} {f : α → Lower γ} {g : α → Lower δ}
    (h : Builds π Eq work work') (hnext : ∀ a, Builds π S (f a) (g a)) :
    Builds π S (work >>= f) (work' >>= g) := by
  refine fun s s' hs => (h s s' hs).bind ?_
  rintro ⟨a, _⟩ ⟨_, _⟩ ⟨rfl, d, d', hd, rfl, rfl⟩
  exact hnext a { s with draft := d } { s' with draft := d' } hd

theorem builds_pure {a : α} {b : β} (h : R a b) : Builds π R (pure a) (pure b) :=
  fun _ _ hs => .ok ⟨h, _, _, hs, rfl, rfl⟩

theorem builds_throw (e : LoweringError) : Builds π R (throw e) (throw e) :=
  fun _ _ _ => agree_same

theorem builds_onDraft {work : Drafting α} {work' : Drafting β}
    (h : Drafting.Agrees π R work work') : Builds π R (onDraft work) (onDraft work') := by
  intro s s' hs
  have hwork := h _ _ hs
  rw [onDraft_apply, onDraft_apply]
  generalize work.outcome s.draft = r, work'.outcome s'.draft = r' at hwork
  cases hwork with
  | ok hr => exact .ok ⟨hr.1, _, _, hr.2, rfl, rfl⟩
  | error he => exact .error he

theorem agrees_onDraft {work : Drafting α} {work' : Drafting β}
    (h : Drafting.Agrees π R work work') : Agrees π R (onDraft work) (onDraft work') :=
  (builds_onDraft h).agrees

theorem agrees_get {f : State → Lower γ} {g : State → Lower δ}
    (h : ∀ s s', s.Paired π s' → Agrees π S (f s) (g s')) : Agrees π S (get >>= f) (get >>= g) :=
  fun s s' hs => h s s' hs s s' hs

theorem agrees_markMayFault : Agrees π Eq markMayFault markMayFault :=
  fun _ _ hs => .ok ⟨rfl, ⟨hs.symbols, hs.draft, rfl⟩, rfl, rfl⟩

/-! ## Names -/

theorem agrees_define (name : String) (binding : Binding) :
    Agrees π π.pairs (define name binding) (define name binding) := by
  intro s s' hs
  have hdefine := hs.symbols.define name binding
  unfold define onSymbols
  dsimp only
  generalize s.symbols.define name binding = r, s'.symbols.define name binding = r' at hdefine
  cases hdefine with
  | ok hr =>
    obtain ⟨hx, hpaired, henclosing, henclosing'⟩ := hr
    exact .ok ⟨hx, ⟨hpaired, hs.draft, hs.mayFault⟩, henclosing, henclosing'⟩
  | error he => exact .error he

theorem agrees_variableOf (name : String) :
    Agrees π π.pairs (variableOf name) (variableOf name) := by
  intro s s' hs
  have hfind := hs.symbols.findVariable name
  unfold variableOf
  generalize s.symbols.findVariable name = r, s'.symbols.findVariable name = r' at hfind
  cases hfind with
  | ok hx => exact .ok ⟨hx, hs.stays⟩
  | error he => exact .error he

/-- Closing a scope brings back the one around it. -/
theorem closeScope_apply {a : α} {t : State} {scope : Scope} {rest : List Scope}
    (h : t.symbols.enclosing = scope :: rest) :
    (onSymbols (fun t => return ((), ← t.popScope)) >>= fun _ => pure a : Lower α) t =
      .ok (a, { t with symbols := ⟨scope, rest, t.symbols.fresh⟩ }) := by
  have hpop : t.symbols.popScope = .ok ⟨scope, rest, t.symbols.fresh⟩ := by
    rw [SymbolTable.popScope, h]
  show (onSymbols (fun t => return ((), ← t.popScope)) t >>= fun r => pure (a, r.2)) = _
  unfold onSymbols
  dsimp only
  rw [hpop]
  rfl

/-- Work in a scope of its own leaves the scopes around it as they are. -/
theorem inScope_agree {work : Lower α} {work' : Lower β} (h : Agrees π R work work') {s s' : State}
    (hsymbols : s.symbols.pushScope.Paired π s'.symbols.pushScope)
    (hdraft : s.draft.Paired π s'.draft) (hmayFault : s.mayFault = s'.mayFault) :
    Agree (fun r r' => R r.1 r'.1 ∧ r.2.draft.Paired π r'.2.draft ∧
      r.2.mayFault = r'.2.mayFault ∧ r.2.symbols.scopes = s.symbols.scopes ∧
      r'.2.symbols.scopes = s'.symbols.scopes ∧
      ∀ i, π.pairs ⟨r.2.symbols.fresh + i⟩ ⟨r'.2.symbols.fresh + i⟩)
      (inScope work s) (inScope work' s') := by
  have hpushed : State.Paired π { s with symbols := s.symbols.pushScope }
      { s' with symbols := s'.symbols.pushScope } := ⟨hsymbols, hdraft, hmayFault⟩
  refine (h _ _ hpushed).bind ?_
  rintro ⟨a, t⟩ ⟨b, t'⟩ ⟨hab, hpaired, henclosing, henclosing'⟩
  show Agree _ ((onSymbols (fun t => return ((), ← t.popScope)) >>= fun _ => pure a : Lower α) t)
    ((onSymbols (fun t => return ((), ← t.popScope)) >>= fun _ => pure b : Lower β) t')
  rw [closeScope_apply henclosing, closeScope_apply henclosing']
  exact .ok ⟨hab, hpaired.draft, hpaired.mayFault, rfl, rfl, hpaired.symbols.fresh⟩

theorem Agrees.inScope {work : Lower α} {work' : Lower β} (h : Agrees π R work work') :
    Agrees π R (inScope work) (inScope work') := by
  refine fun s s' hs => (inScope_agree h hs.symbols.pushScope hs.draft hs.mayFault).imp ?_
  rintro ⟨a, t⟩ ⟨b, t'⟩ ⟨hab, hdraft, hmayFault, hscopes, hscopes', hfresh⟩
  obtain ⟨hinnermost, henclosing⟩ := List.cons.inj hscopes
  obtain ⟨hinnermost', henclosing'⟩ := List.cons.inj hscopes'
  refine ⟨hab, ⟨⟨?_, ?_, hfresh⟩, hdraft, hmayFault⟩, henclosing, henclosing'⟩
  · rw [hinnermost, hinnermost']
    exact hs.symbols.innermost
  · rw [henclosing, henclosing']
    exact hs.symbols.enclosing

/-! ## Instructions and variables -/

theorem builds_emit (inst : Inst) (ty : Ty) : Builds π Eq (emit inst ty) (emit inst ty) :=
  builds_onDraft (Drafting.agrees_emit inst ty)

theorem agrees_emit (inst : Inst) (ty : Ty) : Agrees π Eq (emit inst ty) (emit inst ty) :=
  (builds_emit inst ty).agrees

theorem builds_typeOf (v : Value) : Builds π Eq (typeOf v) (typeOf v) :=
  builds_onDraft (Drafting.agrees_typeOf v)

theorem agrees_typeOf (v : Value) : Agrees π Eq (typeOf v) (typeOf v) := (builds_typeOf v).agrees

theorem agrees_readHere (hx : π.pairs x x') : Agrees π Eq (readHere x) (readHere x') :=
  agrees_onDraft (Drafting.agrees_currentBlock.then fun b => Drafting.agrees_read hx b)

theorem agrees_writeHere (hx : π.pairs x x') (v : Value) :
    Agrees π Eq (writeHere x v) (writeHere x' v) :=
  agrees_onDraft (Drafting.agrees_currentBlock.then fun b => Drafting.agrees_write hx b v)

theorem agrees_introduce (name : String) (ty : Ty) (v : Value) :
    Agrees π π.pairs (introduce name ty v) (introduce name ty v) := by
  refine (agrees_define name .var).bind fun x x' hx => ?_
  refine (agrees_onDraft (Drafting.agrees_declare hx ty)).then fun _ => ?_
  exact (agrees_writeHere hx v).then fun _ => agrees_pure hx

/-! ## Conversions and operators -/

theorem builds_coerce (v : Value) (target : Ty) : Builds π Eq (coerce v target) (coerce v target) := by
  refine (builds_typeOf v).then fun source => ?_
  split
  · exact builds_pure rfl
  · split
    · exact builds_emit _ _
    · exact builds_emit _ _
    · exact builds_throw _

theorem agrees_coerce (v : Value) (target : Ty) : Agrees π Eq (coerce v target) (coerce v target) :=
  (builds_coerce v target).agrees

theorem agrees_truthy (v : Value) : Agrees π Eq (truthy v) (truthy v) := by
  refine (agrees_typeOf v).then fun ty => ?_
  split
  · exact (agrees_emit _ _).then fun _ => agrees_emit _ _
  · exact (agrees_emit _ _).then fun _ => agrees_emit _ _
  · exact agrees_throw _

theorem agrees_negate (v : Value) : Agrees π Eq (negate v) (negate v) := by
  refine (agrees_typeOf v).then fun ty => ?_
  split <;> exact (agrees_emit _ _).then fun _ => agrees_emit _ _

theorem agrees_infixOp (op : InfixOp) (lhs rhs : Value) :
    Agrees π Eq (infixOp config op lhs rhs) (infixOp config op lhs rhs) := by
  refine (agrees_typeOf lhs).then fun left => (agrees_typeOf rhs).then fun right => ?_
  refine (agrees_coerce lhs _).then fun l => (agrees_coerce rhs _).then fun r => ?_
  split
  · exact (agrees_emit _ _).then fun _ => agrees_emit _ _
  · exact (agrees_emit _ _).then fun _ => agrees_emit _ _
  · exact agrees_emit _ _
  · refine (agrees_onDraft (Drafting.agrees_checkedDiv config l r)).then fun _ => ?_
    exact agrees_markMayFault.then fun _ => agrees_pure rfl
  · exact agrees_emit _ _

/-! ## Calls -/

theorem agrees_checkArity (name : String) (expected found : Nat) :
    Agrees π Eq (checkArity name expected found) (checkArity name expected found) := by
  unfold checkArity
  split
  · exact agrees_pure rfl
  · exact agrees_throw _

theorem agrees_isPi {name : String} (hcalled : π.called name) :
    Agrees π Eq (isPi name) (isPi name) := by
  refine agrees_get fun s s' hs => agrees_pure ?_
  by_cases hname : name = piName
  · subst hname
    have hlookup := (hs.symbols.lookup? piName).resolve_right fun hno => hno.1 hcalled
    generalize s.symbols.lookup? piName = s?, s'.symbols.lookup? piName = s'? at hlookup
    cases hlookup <;> rfl
  · simp [hname]

theorem agrees_callWith {name : String} (hcalled : π.called name) (count : Nat)
    {values values' : Lower (List Value)} (h : Agrees π Eq values values') :
    Agrees π Eq (callWith config name count values) (callWith config name count values') := by
  refine (agrees_isPi hcalled).then fun pi => ?_
  split
  · exact (agrees_checkArity name 0 count).then fun _ => agrees_emit _ _
  -- The identity of the function is not looked at.
  refine Agrees.bind (?_ : Agrees π (fun r r' : SymbolId × Nat × Bool => r.2 = r'.2) _ _) ?_
  · intro s s' hs
    have hfind := hs.symbols.findFunction hcalled
    dsimp only
    generalize s.symbols.findFunction name = r, s'.symbols.findFunction name = r' at hfind
    cases hfind with
    | ok hr => exact .ok ⟨hr, hs.stays⟩
    | error he => exact .error he
  rintro ⟨id, arity, mayFault⟩ ⟨id', _, _⟩ ⟨⟩
  refine (agrees_checkArity name arity count).then fun _ => h.then fun vs => ?_
  split
  · exact (agrees_onDraft (Drafting.agrees_invoke config name vs)).then fun _ => agrees_pure rfl
  · exact agrees_emit _ _

/-! ## Expressions -/

/-- The functions that are called on a walk may be called in both runs. -/
def CallsPaired (π : Pairing) (events : List NameEvent) : Prop :=
  ∀ span name count, NameEvent.call span name count ∈ events → π.called name

theorem callsPaired_append {events later : List NameEvent} :
    CallsPaired π (events ++ later) ↔ CallsPaired π events ∧ CallsPaired π later := by
  simp only [CallsPaired, List.mem_append]
  grind

theorem callsPaired_enclosed {events : List NameEvent} :
    CallsPaired π (NameEvent.enclosed events) ↔ CallsPaired π events := by
  simp [CallsPaired, NameEvent.enclosed]

theorem callsPaired_cons {event : NameEvent} {events : List NameEvent} :
    CallsPaired π (event :: events) ↔ CallsPaired π [event] ∧ CallsPaired π events := by
  rw [← List.singleton_append, callsPaired_append]

mutual

/-- An expression is lowered to the same instructions as without places. -/
theorem agrees_expression : ∀ t : Tree, CallsPaired π (NameEvent.ofExpression t) →
    Agrees π Eq (expression config t) (expression config t.unplaced)
  | .node _ (.integer _), _ | .node _ (.floating _), _ => (agrees_emit _ _).located _ _
  | .node _ (.ident name), _ =>
    ((agrees_variableOf name).bind fun _ _ hx => agrees_readHere hx).located _ _
  | .node _ (.infixOp op left right), h => by
    obtain ⟨hleft, hright⟩ := callsPaired_append.1 h
    refine Agrees.located ?_ _ _
    refine (agrees_expression left hleft).then fun l => ?_
    exact (agrees_expression right hright).then fun r => agrees_infixOp op l r
  | .node _ (.negate operand), h =>
    ((agrees_expression operand h).then fun v => agrees_negate v).located _ _
  | .node span (.call name arguments), h => by
    obtain ⟨hname, harguments⟩ := callsPaired_cons.1 h
    have hcalled : π.called name := hname span name arguments.items.length List.mem_cons_self
    have hvalues := agrees_argumentItems arguments harguments
    have hcount : arguments.unplaced.items.length = arguments.items.length := by simp
    refine Agrees.located ?_ _ _
    rw [hcount]
    exact agrees_callWith hcalled _ hvalues
  | .node _ (.program _), _ | .node _ (.list _), _ | .node _ (.letVar ..), _
  | .node _ (.setVar ..), _ | .node _ (.ifElse _ _ none), _ | .node _ (.ifElse _ _ (some _)), _
  | .node _ (.forLoop ..), _ | .node _ (.giveBack _), _ | .node _ (.fnDef ..), _ =>
    (agrees_throw _).located _ _
termination_by structural t => t

theorem agrees_argumentItems : ∀ t : Tree, CallsPaired π (NameEvent.ofArguments t) →
    Agrees π Eq (argumentItems config t) (argumentItems config t.unplaced)
  | .node _ (.program items), h | .node _ (.list items), h => agrees_arguments items h
  | .node _ (.integer _), _ | .node _ (.floating _), _ | .node _ (.ident _), _
  | .node _ (.infixOp ..), _ | .node _ (.negate _), _ | .node _ (.call ..), _
  | .node _ (.letVar ..), _ | .node _ (.setVar ..), _ | .node _ (.ifElse _ _ none), _
  | .node _ (.ifElse _ _ (some _)), _ | .node _ (.forLoop ..), _ | .node _ (.giveBack _), _
  | .node _ (.fnDef ..), _ => agrees_pure rfl
termination_by structural t => t

theorem agrees_arguments : ∀ ts : List Tree, CallsPaired π (NameEvent.ofExpressions ts) →
    Agrees π Eq (arguments config ts) (arguments config (Tree.unplacedAll ts))
  | [], _ => agrees_pure rfl
  | first :: rest, h => by
    obtain ⟨hfirst, hrest⟩ := callsPaired_append.1 h
    refine (agrees_expression first hfirst).then fun v => (agrees_coerce v .int).then fun v' => ?_
    exact (agrees_arguments rest hrest).then fun vs => agrees_pure rfl
termination_by structural ts => ts

end

/-! ## Statements -/

theorem agrees_giveBack (v : Value) : Agrees π Eq (giveBack v) (giveBack v) := by
  refine agrees_onDraft ?_
  refine (Drafting.agrees_terminate _).then fun _ => (Drafting.agrees_newBlock _).then fun dead => ?_
  exact (Drafting.agrees_setCurrent _).then fun _ => Drafting.agrees_sealBlock _

theorem agrees_jumpTo (b : Block) : Agrees π Eq (jumpTo b) (jumpTo b) :=
  agrees_onDraft (Drafting.agrees_terminate _)

theorem agrees_ifElse (condition : Value) {thenBody thenBody' elseBody elseBody' : Lower Unit}
    (hthen : Agrees π Eq thenBody thenBody') (helse : Agrees π Eq elseBody elseBody') :
    Agrees π Eq (ifElse condition thenBody elseBody) (ifElse condition thenBody' elseBody') := by
  refine (agrees_truthy condition).then fun test => ?_
  refine Agrees.then (agrees_onDraft ?_) fun blocks => ?_
  · refine (Drafting.agrees_newBlock _).then fun thenBlock => ?_
    refine (Drafting.agrees_newBlock _).then fun elseBlock => ?_
    refine (Drafting.agrees_newBlock _).then fun join => ?_
    refine (Drafting.agrees_terminate _).then fun _ => (Drafting.agrees_sealBlock _).then fun _ => ?_
    refine (Drafting.agrees_sealBlock _).then fun _ => (Drafting.agrees_setCurrent _).then fun _ => ?_
    exact Drafting.agrees_pure rfl
  refine hthen.then fun _ => (agrees_jumpTo _).then fun _ => ?_
  refine (agrees_onDraft (Drafting.agrees_setCurrent _)).then fun _ => ?_
  refine helse.then fun _ => (agrees_jumpTo _).then fun _ => ?_
  exact agrees_onDraft ((Drafting.agrees_sealBlock _).then fun _ => Drafting.agrees_setCurrent _)

theorem agrees_forLoop (index : String) (bound : Value) {body body' : Lower Unit}
    (h : Agrees π Eq body body') : Agrees π Eq (forLoop index bound body) (forLoop index bound body') := by
  refine Agrees.inScope ?_
  refine (agrees_define index .var).bind fun x x' hx => ?_
  refine (agrees_onDraft (Drafting.agrees_declare hx .int)).then fun _ => ?_
  refine (agrees_emit _ _).then fun zero => (agrees_writeHere hx zero).then fun _ => ?_
  refine Agrees.then (agrees_onDraft ?_) fun blocks => ?_
  · refine (Drafting.agrees_newBlock _).then fun header => ?_
    refine (Drafting.agrees_newBlock _).then fun bodyBlock => ?_
    refine (Drafting.agrees_newBlock _).then fun bodyEnd => ?_
    refine (Drafting.agrees_newBlock _).then fun exit => ?_
    refine (Drafting.agrees_terminate _).then fun _ => (Drafting.agrees_setCurrent _).then fun _ => ?_
    refine (Drafting.agrees_read hx header).then fun current => ?_
    refine (Drafting.agrees_emit _ _).then fun inRange => (Drafting.agrees_terminate _).then fun _ => ?_
    refine (Drafting.agrees_sealBlock _).then fun _ => (Drafting.agrees_setCurrent _).then fun _ => ?_
    exact Drafting.agrees_pure rfl
  refine h.then fun _ => (agrees_jumpTo _).then fun _ => agrees_onDraft ?_
  refine (Drafting.agrees_sealBlock _).then fun _ => (Drafting.agrees_setCurrent _).then fun _ => ?_
  refine (Drafting.agrees_read hx _).then fun current => (Drafting.agrees_emit _ _).then fun one => ?_
  refine (Drafting.agrees_emit _ _).then fun next => (Drafting.agrees_terminate _).then fun _ => ?_
  refine (Drafting.agrees_write hx _ next).then fun _ => (Drafting.agrees_sealBlock _).then fun _ => ?_
  exact (Drafting.agrees_sealBlock _).then fun _ => Drafting.agrees_setCurrent _

theorem agrees_assign (name : String) (v : Value) : Agrees π Eq (assign name v) (assign name v) := by
  refine (agrees_variableOf name).bind fun x x' hx => agrees_get fun s s' hs => ?_
  rw [hs.draft.known.type hx]
  split
  · exact agrees_throw _
  · exact (agrees_coerce v _).then fun v' => agrees_writeHere hx v'

/-- An expression that stands as a statement gives its value. -/
theorem agrees_value (config : FaultConfig) (t : Tree) (h : CallsPaired π (NameEvent.ofExpression t)) :
    Agrees π Eq (located t.span do return some (← expression config t))
      (located Span.none do return some (← expression config t.unplaced)) :=
  ((agrees_expression t h).then fun _ => agrees_pure rfl).located _ _

mutual

/-- A statement is lowered to the same instructions and blocks as without places. -/
theorem agrees_statement : ∀ t : Tree, CallsPaired π (NameEvent.ofStatement t) →
    Agrees π Eq (statement config t) (statement config t.unplaced)
  | .node _ (.letVar name value), h => by
    refine Agrees.located ?_ _ _
    refine (agrees_expression value (callsPaired_append.1 h).1).then fun v => ?_
    refine (agrees_typeOf v).then fun ty => ?_
    exact (agrees_introduce name ty v).bind fun _ _ _ => agrees_pure rfl
  | .node _ (.setVar name value), h => by
    refine Agrees.located ?_ _ _
    refine (agrees_expression value (callsPaired_append.1 h).1).then fun v => ?_
    exact (agrees_assign name v).then fun _ => agrees_pure rfl
  | .node _ (.giveBack value), h => by
    refine Agrees.located ?_ _ _
    refine (agrees_expression value h).then fun v => (agrees_coerce v .int).then fun v' => ?_
    exact (agrees_giveBack v').then fun _ => agrees_pure rfl
  | .node _ (.ifElse condition thenBody none), h => by
    obtain ⟨hcondition, hthen⟩ := callsPaired_append.1 h
    have hthen := agrees_items thenBody (callsPaired_enclosed.1 hthen)
    refine Agrees.located ?_ _ _
    refine (agrees_expression condition hcondition).then fun c => ?_
    exact (agrees_ifElse c hthen.inScope (agrees_pure rfl)).then fun _ => agrees_pure rfl
  | .node _ (.ifElse condition thenBody (some elseBody)), h => by
    obtain ⟨hfront, helse⟩ := callsPaired_append.1 h
    obtain ⟨hcondition, hthen⟩ := callsPaired_append.1 hfront
    have hthen := agrees_items thenBody (callsPaired_enclosed.1 hthen)
    have helse := agrees_items elseBody (callsPaired_enclosed.1 helse)
    refine Agrees.located ?_ _ _
    refine (agrees_expression condition hcondition).then fun c => ?_
    exact (agrees_ifElse c hthen.inScope helse.inScope).then fun _ => agrees_pure rfl
  | .node _ (.forLoop index bound body), h => by
    obtain ⟨hbound, hloop⟩ := callsPaired_append.1 h
    obtain ⟨-, hbody⟩ := callsPaired_cons.1 (callsPaired_enclosed.1 hloop)
    have hbody := agrees_items body (callsPaired_enclosed.1 hbody)
    refine Agrees.located ?_ _ _
    refine (agrees_expression bound hbound).then fun v => (agrees_coerce v .int).then fun limit => ?_
    exact (agrees_forLoop index limit hbody.inScope).then fun _ => agrees_pure rfl
  | .node _ (.fnDef ..), _ | .node _ (.program _), _ | .node _ (.list _), _ =>
    (agrees_throw _).located _ _
  | .node span (.integer value), h => agrees_value config (.node span (.integer value)) h
  | .node span (.floating value), h => agrees_value config (.node span (.floating value)) h
  | .node span (.ident name), h => agrees_value config (.node span (.ident name)) h
  | .node span (.infixOp op left right), h =>
    agrees_value config (.node span (.infixOp op left right)) h
  | .node span (.negate operand), h => agrees_value config (.node span (.negate operand)) h
  | .node span (.call name arguments), h =>
    agrees_value config (.node span (.call name arguments)) h
termination_by structural t => t

theorem agrees_items : ∀ t : Tree, CallsPaired π (NameEvent.ofBody t) →
    Agrees π Eq (items config t) (items config t.unplaced)
  | .node _ (.program items), h | .node _ (.list items), h => agrees_statements items h
  | .node _ (.integer _), _ | .node _ (.floating _), _ | .node _ (.ident _), _
  | .node _ (.infixOp ..), _ | .node _ (.negate _), _ | .node _ (.call ..), _
  | .node _ (.letVar ..), _ | .node _ (.setVar ..), _ | .node _ (.ifElse _ _ none), _
  | .node _ (.ifElse _ _ (some _)), _ | .node _ (.forLoop ..), _ | .node _ (.giveBack _), _
  | .node _ (.fnDef ..), _ => agrees_pure rfl
termination_by structural t => t

theorem agrees_statements : ∀ ts : List Tree, CallsPaired π (NameEvent.ofStatements ts) →
    Agrees π Eq (statements config ts) (statements config (Tree.unplacedAll ts))
  | [], _ => agrees_pure rfl
  | first :: rest, h => by
    obtain ⟨hfirst, hrest⟩ := callsPaired_append.1 h
    exact (agrees_statement first hfirst).then fun _ => agrees_statements rest hrest
termination_by structural ts => ts

end

/-- So are top-level statements. -/
theorem agrees_statementsValue (ts : List Tree) (h : CallsPaired π (NameEvent.ofStatements ts)) :
    Agrees π Eq (statementsValue config ts) (statementsValue config (ts.map Tree.unplaced)) := by
  induction ts with
  | nil => exact agrees_pure rfl
  | cons first rest ih =>
    obtain ⟨hfirst, hrest⟩ := callsPaired_append.1 h
    refine (agrees_statement first hfirst).then fun v? => ?_
    exact (ih hrest).then fun later? => agrees_pure rfl

end Lower

end Abacus.Lowering
