import Abacus.Proofs.Lowering.Failures
import Abacus.Proofs.Pairing.Functions
import Abacus.Proofs.Tree.Renaming

/-!
# Bodies under other names

Lowering tells names apart and looks them up, and knows one of them, that of the circle constant. A body
whose variables have other names is lowered to the same instructions, and the symbols of its variables
are the same. If it cannot be lowered, the complaint is the same but for the names.

* `LoweringError.rename`, `SymbolTable.rename`, `State.rename` — errors and states under other names;
* `Translated` — an outcome and the same outcome under other names;
* `Lower.Translates` — work and the same work under other names;
* `Lower.translates_expression`, `Lower.translates_statement` — by induction on trees.
-/

namespace Abacus.Lowering

open Abacus.Flow (Value Block Ty Inst)

variable {ρ : String → String} {α β γ δ : Type}

/-- Different names stay different, and the circle constant keeps its name. -/
structure Renaming (ρ : String → String) : Prop where
  injective : Function.Injective ρ
  pi : ρ piName = piName

/-! ## Errors -/

/-- The defect, with other names where it says a name of the program. -/
def Defect.rename (ρ : String → String) : Defect → Defect
  | nestedFunction name => nestedFunction (ρ name)
  | untyped name => untyped (ρ name)
  | defect => defect

/-- The cause, with other names. -/
def Cause.rename (ρ : String → String) : Cause → Cause
  | duplicate name => duplicate (ρ name)
  | unknown kind name => unknown kind (ρ name)
  | arity name expected found => arity (ρ name) expected found
  | internal defect => internal (defect.rename ρ)

/-- The error, with other names. -/
def LoweringError.rename (ρ : String → String) (e : LoweringError) : LoweringError :=
  { e with cause := e.cause.rename ρ }

theorem LoweringError.rename_locate (e : LoweringError) (span : Span) :
    (e.locate span).rename ρ = (e.rename ρ).locate span := apply_ite (rename ρ) _ _ _

/-- Searches know the symbols of variables only. -/
theorem Defect.OfSearch.rename {defect : Defect} (h : defect.OfSearch) :
    defect.rename ρ = defect := by
  cases h <;> rfl

/-! ## Outcomes -/

/-- The second outcome is the first one under other names, which `f` gives to results. -/
def Translated (ρ : String → String) (f : α → β) (x : Except LoweringError α)
    (x' : Except LoweringError β) : Prop :=
  x' = (x.map f).mapError (LoweringError.rename ρ)

section

variable {f : α → β} {g : γ → δ} {x : Except LoweringError α} {x' : Except LoweringError β}

theorem translated_ok (a : α) : Translated ρ f (.ok a) (.ok (f a)) := rfl

theorem translated_error (e : LoweringError) :
    Translated ρ f (.error e : Except LoweringError α) (.error (e.rename ρ)) := rfl

/-- An outcome that has no names stays. -/
theorem translated_self {x : Except LoweringError α} (h : ∀ e, x = .error e → e.rename ρ = e) :
    Translated ρ id x x := by
  cases x with
  | ok a => rfl
  | error e => exact congrArg Except.error (h e rfl).symm

theorem Translated.bind {next : α → Except LoweringError γ} {next' : β → Except LoweringError δ}
    (h : Translated ρ f x x') (hnext : ∀ a, x = .ok a → Translated ρ g (next a) (next' (f a))) :
    Translated ρ g (x >>= next) (x' >>= next') := by
  obtain rfl := h
  cases x with
  | ok a => exact hnext a rfl
  | error e => rfl

theorem Translated.locate (h : Translated ρ f x x') (span : Span) :
    Translated ρ f (locateError span x) (locateError span x') := by
  obtain rfl := h
  cases x with
  | ok a => rfl
  | error e => exact congrArg Except.error (e.rename_locate span).symm

end

/-! ## Names in scope -/

/-- The scope, with other names for the same symbols. -/
def Scope.rename (ρ : String → String) (scope : Scope) : Scope :=
  scope.map fun entry => (ρ entry.1, entry.2)

/-- The table, with other names for the same symbols. -/
def SymbolTable.rename (ρ : String → String) (t : SymbolTable) : SymbolTable :=
  ⟨t.innermost.rename ρ, t.enclosing.map (Scope.rename ρ), t.fresh⟩

/-- The state, with other names for the same symbols. -/
def State.rename (ρ : String → String) (s : State) : State := { s with symbols := s.symbols.rename ρ }

theorem Scope.lookup_rename (hρ : Renaming ρ) (scope : Scope) (name : String) :
    (scope.rename ρ).lookup (ρ name) = scope.lookup name := by
  induction scope with
  | nil => rfl
  | cons entry rest ih =>
    have ih : List.lookup (ρ name) (rest.map fun entry => (ρ entry.1, entry.2)) = _ := ih
    -- Here names are compared: it takes a renaming that keeps different ones different.
    unfold Scope.rename
    rw [List.map_cons, List.lookup_cons, List.lookup_cons, hρ.injective.beq_eq, ih]

namespace SymbolTable

variable (hρ : Renaming ρ) (t : SymbolTable) (name : String) (binding : Binding)

theorem popScope_rename :
    Translated ρ (SymbolTable.rename ρ) t.popScope (t.rename ρ).popScope := by
  obtain ⟨innermost, enclosing, fresh⟩ := t
  cases enclosing <;> rfl

include hρ

theorem lookup?_rename : (t.rename ρ).lookup? (ρ name) = t.lookup? name := by
  have hscopes : (t.rename ρ).scopes = t.scopes.map (Scope.rename ρ) := rfl
  unfold lookup?
  rw [hscopes, List.findSome?_map]
  exact congrArg (List.findSome? · t.scopes) (funext fun scope => scope.lookup_rename hρ name)

theorem define_rename : Translated ρ (Prod.map id (SymbolTable.rename ρ)) (t.define name binding)
    ((t.rename ρ).define (ρ name) binding) := by
  have hlookup : (t.rename ρ).innermost.lookup (ρ name) = t.innermost.lookup name :=
    t.innermost.lookup_rename hρ name
  unfold define
  rw [hlookup]
  cases t.innermost.lookup name <;> rfl

theorem findVariable_rename :
    Translated ρ id (t.findVariable name) ((t.rename ρ).findVariable (ρ name)) := by
  unfold findVariable
  rw [t.lookup?_rename hρ]
  split <;> rfl

theorem findFunction_rename :
    Translated ρ id (t.findFunction name) ((t.rename ρ).findFunction (ρ name)) := by
  unfold findFunction
  rw [t.lookup?_rename hρ]
  split <;> rfl

theorem rebind_rename (scope : Scope) :
    rebind (scope.rename ρ) (ρ name) binding = (rebind scope name binding).rename ρ := by
  unfold rebind Scope.rename
  rw [List.map_map, List.map_map]
  refine List.map_congr_left fun entry _ => ?_
  by_cases h : entry.1 = name
  · simp [h]
  · simp [h, hρ.injective.eq_iff]

theorem rebindFirst_rename (scopes : List Scope) :
    rebindFirst (ρ name) binding (scopes.map (Scope.rename ρ)) =
      (rebindFirst name binding scopes).map (Scope.rename ρ) := by
  induction scopes with
  | nil => rfl
  | cons scope rest ih =>
    rw [List.map_cons, rebindFirst, rebindFirst, scope.lookup_rename hρ, rebind_rename hρ, ih]
    split <;> rfl

theorem redefine_rename : Translated ρ (Prod.map id (SymbolTable.rename ρ))
    (t.redefine name binding) ((t.rename ρ).redefine (ρ name) binding) := by
  have hscopes : rebindFirst (ρ name) binding (t.rename ρ).scopes =
      (rebindFirst name binding t.scopes).map (Scope.rename ρ) :=
    rebindFirst_rename hρ name binding t.scopes
  unfold redefine
  rw [t.lookup?_rename hρ, hscopes]
  cases t.lookup? name with
  | none => rfl
  | some symbol => cases rebindFirst name binding t.scopes <;> rfl

end SymbolTable

/-! ## Pieces of work -/

namespace Lower

/-- In the state under other names, the second piece of work does what the first one does. -/
def Translates (ρ : String → String) (work work' : Lower α) : Prop :=
  ∀ s, Translated ρ (Prod.map id (State.rename ρ)) (work s) (work' (s.rename ρ))

variable {work work' : Lower α}

theorem Translates.bind {next next' : α → Lower β} (h : Translates ρ work work')
    (hnext : ∀ a, Translates ρ (next a) (next' a)) :
    Translates ρ (work >>= next) (work' >>= next') :=
  fun s => (h s).bind fun p _ => hnext p.1 p.2

theorem translates_pure (a : α) : Translates ρ (pure a) (pure a) := fun s => translated_ok (a, s)

theorem translates_throw (e : LoweringError) :
    Translates ρ (throw e : Lower α) (throw (e.rename ρ)) := fun _ => translated_error e

theorem translates_get {next next' : State → Lower α}
    (h : ∀ s, Translates ρ (next s) (next' (s.rename ρ))) :
    Translates ρ (get >>= next) (get >>= next') := fun s => h s s

theorem translates_modify {change : State → State}
    (h : ∀ s, change (s.rename ρ) = (change s).rename ρ) :
    Translates ρ (modify change : Lower PUnit) (modify change) := by
  intro s
  show Except.ok ((), change (s.rename ρ)) = _
  rw [h]
  rfl

theorem Translates.located (h : Translates ρ work work') (span : Span) :
    Translates ρ (located span work) (located span work') := by
  intro s
  have hwork := h s
  unfold Lower.located
  rw [hwork]
  cases work s with
  | ok r => rfl
  | error e => exact congrArg Except.error (e.rename_locate span).symm

/-- Drafts have no names of variables. -/
theorem translates_onDraft {work : Drafting α} (h : Drafting.Clean work) :
    Translates ρ (onDraft work) (onDraft work) := by
  intro s
  show onDraft work { s with symbols := s.symbols.rename ρ } = _
  unfold onDraft
  dsimp only
  rcases hwork : work.on s.draft with ⟨e | a, d⟩
  · -- What a search complains about are symbols and blocks.
    obtain ⟨defect, hdefect, rfl⟩ := h _ _ _ hwork
    show _ = Except.error (LoweringError.ofCause (.internal (defect.rename ρ)))
    rw [hdefect.rename]
    rfl
  · rfl

theorem translates_onSymbols {work work' : SymbolTable → Except LoweringError (α × SymbolTable)}
    (h : ∀ t, Translated ρ (Prod.map id (SymbolTable.rename ρ)) (work t) (work' (t.rename ρ))) :
    Translates ρ (onSymbols work) (onSymbols work') := by
  intro s
  have hwork := h s.symbols
  show onSymbols work' { s with symbols := s.symbols.rename ρ } = _
  unfold onSymbols
  dsimp only
  rw [hwork]
  cases work s.symbols <;> rfl

theorem Translates.inScope (h : Translates ρ work work') :
    Translates ρ (inScope work) (inScope work') := by
  have hpush : Translates ρ (modify fun s => { s with symbols := s.symbols.pushScope }) _ :=
    translates_modify fun _ => rfl
  refine hpush.bind fun _ => h.bind fun a => ?_
  refine (translates_onSymbols fun t => ?_).bind fun _ => translates_pure a
  exact t.popScope_rename.bind fun t' _ => translated_ok ((), t')

/-! ## Instructions, conversions and operators -/

variable {config : FaultConfig}

theorem translates_emit (inst : Inst) (ty : Ty) : Translates ρ (emit inst ty) (emit inst ty) :=
  translates_onDraft (Drafting.clean_emit inst ty)

theorem translates_typeOf (v : Value) : Translates ρ (typeOf v) (typeOf v) :=
  translates_onDraft (Drafting.clean_typeOf v)

theorem translates_readHere (x : SymbolId) : Translates ρ (readHere x) (readHere x) :=
  translates_onDraft (Drafting.clean_currentBlock.bind fun b => Drafting.clean_read x b)

theorem translates_writeHere (x : SymbolId) (v : Value) :
    Translates ρ (writeHere x v) (writeHere x v) :=
  translates_onDraft (Drafting.clean_currentBlock.bind fun _ => Drafting.clean_note _)

theorem translates_coerce (v : Value) (target : Ty) :
    Translates ρ (coerce v target) (coerce v target) := by
  refine (translates_typeOf v).bind fun source => ?_
  split
  · exact translates_pure v
  · split
    · exact translates_emit _ _
    · exact translates_emit _ _
    · exact translates_throw _

theorem translates_truthy (v : Value) : Translates ρ (truthy v) (truthy v) := by
  refine (translates_typeOf v).bind fun ty => ?_
  split
  · exact (translates_emit _ _).bind fun _ => translates_emit _ _
  · exact (translates_emit _ _).bind fun _ => translates_emit _ _
  · exact translates_throw _

theorem translates_negate (v : Value) : Translates ρ (negate v) (negate v) := by
  refine (translates_typeOf v).bind fun ty => ?_
  split <;> exact (translates_emit _ _).bind fun _ => translates_emit _ _

theorem translates_markMayFault : Translates ρ markMayFault markMayFault :=
  translates_modify fun _ => rfl

theorem translates_infixOp (op : InfixOp) (lhs rhs : Value) :
    Translates ρ (infixOp config op lhs rhs) (infixOp config op lhs rhs) := by
  refine (translates_typeOf lhs).bind fun left => (translates_typeOf rhs).bind fun right => ?_
  refine (translates_coerce lhs _).bind fun l => (translates_coerce rhs _).bind fun r => ?_
  split
  · exact (translates_emit _ _).bind fun _ => translates_emit _ _
  · exact (translates_emit _ _).bind fun _ => translates_emit _ _
  · exact translates_emit _ _
  · refine (translates_onDraft (Drafting.clean_checkedDiv config l r)).bind fun _ => ?_
    exact translates_markMayFault.bind fun _ => translates_pure _
  · exact translates_emit _ _

/-! ## Names -/

section

variable (hρ : Renaming ρ)
include hρ

theorem translates_define (name : String) (binding : Binding) :
    Translates ρ (define name binding) (define (ρ name) binding) :=
  translates_onSymbols fun t => t.define_rename hρ name binding

theorem translates_variableOf (name : String) :
    Translates ρ (variableOf name) (variableOf (ρ name)) := by
  intro s
  have hfind : (s.rename ρ).symbols.findVariable (ρ name) = _ :=
    s.symbols.findVariable_rename hρ name
  unfold variableOf
  rw [hfind]
  cases s.symbols.findVariable name <;> rfl

theorem translates_introduce (name : String) (ty : Ty) (v : Value) :
    Translates ρ (introduce name ty v) (introduce (ρ name) ty v) := by
  refine (translates_define hρ name .var).bind fun x => ?_
  refine (translates_onDraft (Drafting.clean_note _)).bind fun _ => ?_
  exact (translates_writeHere x v).bind fun _ => translates_pure x

theorem translates_assign (name : String) (v : Value) :
    Translates ρ (assign name v) (assign (ρ name) v) := by
  refine (translates_variableOf hρ name).bind fun x => translates_get fun s => ?_
  have hdraft : (s.rename ρ).draft = s.draft := rfl
  rw [hdraft]
  split
  · exact translates_throw _
  · exact (translates_coerce v _).bind fun v' => translates_writeHere x v'

end

/-! ## Calls -/

theorem translates_checkArity (name : String) (expected found : Nat) :
    Translates ρ (checkArity name expected found) (checkArity (ρ name) expected found) := by
  unfold checkArity
  split
  · exact translates_pure ()
  · exact translates_throw _

section

variable (hρ : Renaming ρ)
include hρ

/-- No other name becomes that of the circle constant. -/
theorem translates_isPi (name : String) : Translates ρ (isPi name) (isPi (ρ name)) := by
  refine translates_get fun s => ?_
  have hname : ρ name = ρ piName ↔ name = piName := hρ.injective.eq_iff
  rw [hρ.pi] at hname
  have hlookup : (s.rename ρ).symbols.lookup? piName = s.symbols.lookup? piName := by
    rw [← s.symbols.lookup?_rename hρ piName, hρ.pi]
    rfl
  rw [decide_eq_decide.2 hname, hlookup]
  exact translates_pure _

/-- A call names the function, so the function keeps its name. -/
theorem translates_callWith {name : String} (hname : ρ name = name) (count : Nat)
    {values values' : Lower (List Value)} (h : Translates ρ values values') :
    Translates ρ (callWith config name count values) (callWith config (ρ name) count values') := by
  refine (translates_isPi hρ name).bind fun pi => ?_
  split
  · exact (translates_checkArity name 0 count).bind fun _ => translates_emit _ _
  refine Translates.bind ?_ fun found => ?_
  · intro s
    have hfind : (s.rename ρ).symbols.findFunction (ρ name) = _ :=
      s.symbols.findFunction_rename hρ name
    dsimp only
    rw [hfind]
    cases s.symbols.findFunction name <;> rfl
  obtain ⟨id, arity, mayFault⟩ := found
  refine (translates_checkArity name arity count).bind fun _ => h.bind fun vs => ?_
  -- From here on the name stands in the graph.
  rw [hname]
  split
  · refine (translates_onDraft (Drafting.clean_invoke config name vs)).bind fun _ => ?_
    exact translates_pure _
  · exact translates_emit _ _

end

/-! ## Expressions -/

/-- The functions that are called on a walk keep their names. -/
def Keeps (ρ : String → String) (events : List NameEvent) : Prop :=
  ∀ name ∈ events.filterMap NameEvent.callee?, ρ name = name

theorem keeps_append {events later : List NameEvent} :
    Keeps ρ (events ++ later) ↔ Keeps ρ events ∧ Keeps ρ later := by
  simp only [Keeps, List.filterMap_append, List.forall_mem_append]

theorem keeps_enclosed {events : List NameEvent} :
    Keeps ρ (NameEvent.enclosed events) ↔ Keeps ρ events := by
  simp [Keeps, NameEvent.enclosed, NameEvent.callee?]

theorem keeps_call {span : Span} {name : String} {count : Nat} {events : List NameEvent} :
    Keeps ρ (.call span name count :: events) ↔ ρ name = name ∧ Keeps ρ events := by
  simp [Keeps, NameEvent.callee?]

theorem keeps_define {span : Span} {name : String} {kind : NameKind} {events : List NameEvent} :
    Keeps ρ (.define span name kind :: events) ↔ Keeps ρ events := by
  simp [Keeps, NameEvent.callee?]

mutual

/-- An expression under other names is lowered to the same. -/
theorem translates_expression (hρ : Renaming ρ) (config : FaultConfig) :
    ∀ t : Tree, Keeps ρ (NameEvent.ofExpression t) →
      Translates ρ (expression config t) (expression config (t.rename ρ))
  | .node _ (.integer _), _ | .node _ (.floating _), _ => (translates_emit _ _).located _
  | .node _ (.ident name), _ =>
    ((translates_variableOf hρ name).bind fun x => translates_readHere x).located _
  | .node _ (.infixOp op left right), h => by
    obtain ⟨hleft, hright⟩ := keeps_append.1 h
    refine Translates.located ?_ _
    refine (translates_expression hρ config left hleft).bind fun l => ?_
    exact (translates_expression hρ config right hright).bind fun r => translates_infixOp op l r
  | .node _ (.negate operand), h =>
    ((translates_expression hρ config operand h).bind fun v => translates_negate v).located _
  | .node _ (.call name arguments), h => by
    obtain ⟨hname, harguments⟩ := keeps_call.1 h
    have hvalues := translates_argumentItems hρ config arguments harguments
    have hcount : (arguments.rename ρ).items.length = arguments.items.length := by simp
    refine Translates.located ?_ _
    rw [hcount]
    exact translates_callWith hρ hname _ hvalues
  | .node _ (.program _), _ | .node _ (.list _), _ | .node _ (.letVar ..), _
  | .node _ (.setVar ..), _ | .node _ (.ifElse _ _ none), _ | .node _ (.ifElse _ _ (some _)), _
  | .node _ (.forLoop ..), _ | .node _ (.giveBack _), _ | .node _ (.fnDef ..), _ =>
    (translates_throw _).located _
termination_by structural t => t

theorem translates_argumentItems (hρ : Renaming ρ) (config : FaultConfig) :
    ∀ t : Tree, Keeps ρ (NameEvent.ofArguments t) →
      Translates ρ (argumentItems config t) (argumentItems config (t.rename ρ))
  | .node _ (.program items), h | .node _ (.list items), h => translates_arguments hρ config items h
  | .node _ (.integer _), _ | .node _ (.floating _), _ | .node _ (.ident _), _
  | .node _ (.infixOp ..), _ | .node _ (.negate _), _ | .node _ (.call ..), _
  | .node _ (.letVar ..), _ | .node _ (.setVar ..), _ | .node _ (.ifElse _ _ none), _
  | .node _ (.ifElse _ _ (some _)), _ | .node _ (.forLoop ..), _ | .node _ (.giveBack _), _
  | .node _ (.fnDef ..), _ => translates_pure []
termination_by structural t => t

theorem translates_arguments (hρ : Renaming ρ) (config : FaultConfig) :
    ∀ ts : List Tree, Keeps ρ (NameEvent.ofExpressions ts) →
      Translates ρ (arguments config ts) (arguments config (Tree.renameAll ρ ts))
  | [], _ => translates_pure []
  | first :: rest, h => by
    obtain ⟨hfirst, hrest⟩ := keeps_append.1 h
    refine (translates_expression hρ config first hfirst).bind fun v => ?_
    refine (translates_coerce v .int).bind fun v' => ?_
    exact (translates_arguments hρ config rest hrest).bind fun vs => translates_pure _
termination_by structural ts => ts

end

/-! ## Statements -/

theorem translates_jumpTo (b : Block) : Translates ρ (jumpTo b) (jumpTo b) :=
  translates_onDraft (Drafting.clean_terminate _)

theorem translates_giveBack (v : Value) : Translates ρ (giveBack v) (giveBack v) :=
  translates_onDraft (Drafting.clean_giveBack v)

theorem translates_ifElse (condition : Value) {thenBody thenBody' elseBody elseBody' : Lower Unit}
    (hthen : Translates ρ thenBody thenBody') (helse : Translates ρ elseBody elseBody') :
    Translates ρ (ifElse condition thenBody elseBody) (ifElse condition thenBody' elseBody') := by
  refine (translates_truthy condition).bind fun test => ?_
  refine (translates_onDraft (Drafting.clean_split test)).bind fun ⟨elseBlock, join⟩ => ?_
  refine hthen.bind fun _ => (translates_jumpTo _).bind fun _ => ?_
  refine (translates_onDraft (Drafting.clean_setCurrent _)).bind fun _ => ?_
  refine helse.bind fun _ => (translates_jumpTo _).bind fun _ => ?_
  exact translates_onDraft (Drafting.clean_joinWays join)

theorem translates_forLoop (hρ : Renaming ρ) (index : String) (bound : Value)
    {body body' : Lower Unit} (h : Translates ρ body body') :
    Translates ρ (forLoop index bound body) (forLoop (ρ index) bound body') := by
  refine Translates.inScope ((translates_define hρ index .var).bind fun x => ?_)
  refine (translates_onDraft (Drafting.clean_note _)).bind fun _ => ?_
  refine (translates_emit _ _).bind fun zero => (translates_writeHere x zero).bind fun _ => ?_
  refine (translates_onDraft (Drafting.clean_loopHead x bound)).bind fun ⟨header, bodyEnd, exit⟩ => ?_
  refine h.bind fun _ => (translates_jumpTo bodyEnd).bind fun _ => ?_
  exact translates_onDraft (Drafting.clean_loopTail x header bodyEnd exit)

/-- An expression that stands as a statement gives its value. -/
theorem translates_value (hρ : Renaming ρ) (config : FaultConfig) (span : Span) (t : Tree)
    (h : Keeps ρ (NameEvent.ofExpression t)) :
    Translates ρ (located span do return some (← expression config t))
      (located span do return some (← expression config (t.rename ρ))) :=
  ((translates_expression hρ config t h).bind fun _ => translates_pure _).located span

mutual

/-- A statement under other names is lowered to the same. -/
theorem translates_statement (hρ : Renaming ρ) (config : FaultConfig) :
    ∀ t : Tree, Keeps ρ (NameEvent.ofStatement t) →
      Translates ρ (statement config t) (statement config (t.rename ρ))
  | .node _ (.letVar name value), h => by
    refine Translates.located ?_ _
    refine (translates_expression hρ config value (keeps_append.1 h).1).bind fun v => ?_
    refine (translates_typeOf v).bind fun ty => ?_
    exact (translates_introduce hρ name ty v).bind fun _ => translates_pure none
  | .node _ (.setVar name value), h => by
    refine Translates.located ?_ _
    refine (translates_expression hρ config value (keeps_append.1 h).1).bind fun v => ?_
    exact (translates_assign hρ name v).bind fun _ => translates_pure none
  | .node _ (.giveBack value), h => by
    refine Translates.located ?_ _
    refine (translates_expression hρ config value h).bind fun v => ?_
    refine (translates_coerce v .int).bind fun v' => ?_
    exact (translates_giveBack v').bind fun _ => translates_pure none
  | .node _ (.ifElse condition thenBody none), h => by
    obtain ⟨hcondition, hthen⟩ := keeps_append.1 h
    have hthen := translates_items hρ config thenBody (keeps_enclosed.1 hthen)
    refine Translates.located ?_ _
    refine (translates_expression hρ config condition hcondition).bind fun c => ?_
    refine (translates_ifElse c hthen.inScope (translates_pure ())).bind fun _ => ?_
    exact translates_pure none
  | .node _ (.ifElse condition thenBody (some elseBody)), h => by
    obtain ⟨hfront, helse⟩ := keeps_append.1 h
    obtain ⟨hcondition, hthen⟩ := keeps_append.1 hfront
    have hthen := translates_items hρ config thenBody (keeps_enclosed.1 hthen)
    have helse := translates_items hρ config elseBody (keeps_enclosed.1 helse)
    refine Translates.located ?_ _
    refine (translates_expression hρ config condition hcondition).bind fun c => ?_
    exact (translates_ifElse c hthen.inScope helse.inScope).bind fun _ => translates_pure none
  | .node _ (.forLoop index bound body), h => by
    obtain ⟨hbound, hloop⟩ := keeps_append.1 h
    have hbody := keeps_enclosed.1 (keeps_define.1 (keeps_enclosed.1 hloop))
    have hbody := translates_items hρ config body hbody
    refine Translates.located ?_ _
    refine (translates_expression hρ config bound hbound).bind fun v => ?_
    refine (translates_coerce v .int).bind fun limit => ?_
    exact (translates_forLoop hρ index limit hbody.inScope).bind fun _ => translates_pure none
  | .node _ (.fnDef ..), _ | .node _ (.program _), _ | .node _ (.list _), _ =>
    (translates_throw _).located _
  | .node span (.integer value), h => translates_value hρ config span (.node span (.integer value)) h
  | .node span (.floating value), h =>
    translates_value hρ config span (.node span (.floating value)) h
  | .node span (.ident name), h => translates_value hρ config span (.node span (.ident name)) h
  | .node span (.infixOp op left right), h =>
    translates_value hρ config span (.node span (.infixOp op left right)) h
  | .node span (.negate operand), h =>
    translates_value hρ config span (.node span (.negate operand)) h
  | .node span (.call name arguments), h =>
    translates_value hρ config span (.node span (.call name arguments)) h
termination_by structural t => t

theorem translates_items (hρ : Renaming ρ) (config : FaultConfig) :
    ∀ t : Tree, Keeps ρ (NameEvent.ofBody t) →
      Translates ρ (items config t) (items config (t.rename ρ))
  | .node _ (.program items), h | .node _ (.list items), h => translates_statements hρ config items h
  | .node _ (.integer _), _ | .node _ (.floating _), _ | .node _ (.ident _), _
  | .node _ (.infixOp ..), _ | .node _ (.negate _), _ | .node _ (.call ..), _
  | .node _ (.letVar ..), _ | .node _ (.setVar ..), _ | .node _ (.ifElse _ _ none), _
  | .node _ (.ifElse _ _ (some _)), _ | .node _ (.forLoop ..), _ | .node _ (.giveBack _), _
  | .node _ (.fnDef ..), _ => translates_pure ()
termination_by structural t => t

theorem translates_statements (hρ : Renaming ρ) (config : FaultConfig) :
    ∀ ts : List Tree, Keeps ρ (NameEvent.ofStatements ts) →
      Translates ρ (statements config ts) (statements config (Tree.renameAll ρ ts))
  | [], _ => translates_pure ()
  | first :: rest, h => by
    obtain ⟨hfirst, hrest⟩ := keeps_append.1 h
    refine (translates_statement hρ config first hfirst).bind fun _ => ?_
    exact translates_statements hρ config rest hrest
termination_by structural ts => ts

end

/-- So are top-level statements. -/
theorem translates_statementsValue (hρ : Renaming ρ) (config : FaultConfig) (ts : List Tree)
    (h : Keeps ρ (NameEvent.ofStatements ts)) :
    Translates ρ (statementsValue config ts) (statementsValue config (ts.map (Tree.rename ρ))) := by
  induction ts with
  | nil => exact translates_pure none
  | cons first rest ih =>
    obtain ⟨hfirst, hrest⟩ := keeps_append.1 h
    refine (translates_statement hρ config first hfirst).bind fun v? => ?_
    exact (ih hrest).bind fun later? => translates_pure _

end Lower

end Abacus.Lowering
