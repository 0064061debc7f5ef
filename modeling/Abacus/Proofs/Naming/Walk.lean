import Mathlib.Logic.Function.Basic
import Abacus.Proofs.Lowering.Linking

/-!
# What a program does with names

Names are used, called and defined, and scopes are opened and closed, in the order in which a
program is evaluated: operands from left to right, a value before the name that it is given to, the
name of a function before the arguments of its call. A `NameEvent` is one step of this walk.

* `NameEvent.violation?` — what is wrong with an event where some names are in scope;
* `NameEvent.ofUnit` — the walk through a unit: its definitions, then its top-level statements;
* `WellScoped`, `FirstViolation` — nothing is wrong on a walk, or this is the first thing;
* `walk_ok_iff`, `walk_error_iff` — both are found by going through the walk once.
-/

namespace Abacus.Lowering

/-! ## Names in scope -/

/-- What a name stands for: a variable, or a function of so many parameters. -/
inductive NameKind where
  | var
  | function (arity : Nat)
  deriving DecidableEq, Repr

/-- What the names that are defined in one scope stand for. -/
abbrev Names := String → Option NameKind

/-- The scopes, the innermost first. -/
abbrev Scopes := List Names

namespace Scopes

/-- A scope in which nothing is defined. -/
def noNames : Names := fun _ => none

/-- The innermost scope. -/
def innermost (scopes : Scopes) : Names := scopes.headD noNames

/-- What a name stands for: what it is in the innermost scope that defines it. -/
def find? (scopes : Scopes) (name : String) : Option NameKind := scopes.findSome? (· name)

/-- Defines a name in the innermost scope. -/
def define (scopes : Scopes) (name : String) (kind : NameKind) : Scopes :=
  Function.update scopes.innermost name (some kind) :: scopes.tail

/-- The names that earlier units export make up the outermost scope. -/
def ofExports (exports : List Export) : Scopes :=
  [fun name => (exports.find? (·.name = name)).map fun e => .function e.arity]

end Scopes

/-! ## Events -/

/-- Something that a program does with names, at a place of its source text. -/
inductive NameEvent where
  /-- A variable is read or set. -/
  | use (span : Span) (name : String)
  /-- A function is called with so many arguments. -/
  | call (span : Span) (name : String) (count : Nat)
  /-- A name is defined in the innermost scope. -/
  | define (span : Span) (name : String) (kind : NameKind)
  /-- A scope is opened. -/
  | enter
  /-- The innermost scope is closed. -/
  | leave
  deriving DecidableEq, Repr

namespace NameEvent

/-- The names in scope after an event. -/
def after (scopes : Scopes) : NameEvent → Scopes
  | use .. | call .. => scopes
  | define _ name kind => scopes.define name kind
  | enter => Scopes.noNames :: scopes
  | leave => scopes.tail

/-- What is wrong with an event. A name that is used must stand for a variable. A name that is called
must stand for a function with as many parameters as there are arguments; the circle constant can be
called as long as no name in scope hides it. A name that is defined must be new in its scope. -/
def violation? (scopes : Scopes) : NameEvent → Option LoweringError
  | use span name =>
    if scopes.find? name = some .var then none else some ⟨.unknown .var name, span⟩
  | call span name count =>
    match scopes.find? name with
    | some (.function arity) =>
      if count = arity then none else some ⟨.arity name arity count, span⟩
    | some .var => some ⟨.unknown .function name, span⟩
    | none =>
      if name = piName then if count = 0 then none else some ⟨.arity name 0 count, span⟩
      else some ⟨.unknown .function name, span⟩
  | define span name _ =>
    if (scopes.innermost name).isSome then some ⟨.duplicate name, span⟩ else none
  | enter | leave => none

/-- One step of the walk. -/
def step (scopes : Scopes) (event : NameEvent) : Except LoweringError Scopes :=
  match event.violation? scopes with
  | some e => .error e
  | none => .ok (event.after scopes)

end NameEvent

/-- Goes through a walk up to the first event with which something is wrong. -/
def walk (scopes : Scopes) (events : List NameEvent) : Except LoweringError Scopes :=
  events.foldlM NameEvent.step scopes

/-- Nothing is wrong with any event of the walk, where it stands. -/
def WellScoped (scopes : Scopes) (events : List NameEvent) : Prop :=
  ∀ front event back, events = front ++ event :: back →
    event.violation? (front.foldl NameEvent.after scopes) = none

/-- Something is wrong with an event of the walk, and nothing with those before it. -/
def FirstViolation (scopes : Scopes) (events : List NameEvent) (e : LoweringError) : Prop :=
  ∃ front event back, events = front ++ event :: back ∧ WellScoped scopes front ∧
    event.violation? (front.foldl NameEvent.after scopes) = some e

section

variable {scopes scopes' : Scopes} {events : List NameEvent} {e : LoweringError}

@[simp] theorem walk_nil (scopes : Scopes) : walk scopes [] = .ok scopes := rfl

theorem walk_cons (scopes : Scopes) (event : NameEvent) (events : List NameEvent) :
    walk scopes (event :: events) = event.step scopes >>= fun scopes => walk scopes events :=
  List.foldlM_cons

theorem walk_append (scopes : Scopes) (front back : List NameEvent) :
    walk scopes (front ++ back) = walk scopes front >>= fun scopes => walk scopes back :=
  List.foldlM_append

theorem wellScoped_nil (scopes : Scopes) : WellScoped scopes [] := by
  intro front event back h
  simp at h

theorem wellScoped_cons {event : NameEvent} : WellScoped scopes (event :: events) ↔
    event.violation? scopes = none ∧ WellScoped (event.after scopes) events := by
  constructor
  · intro h
    exact ⟨h [] event events rfl, fun front event' back heq =>
      h (event :: front) event' back (by rw [heq, List.cons_append])⟩
  · rintro ⟨hevent, hrest⟩ front event' back heq
    cases front with
    | nil =>
      cases heq
      exact hevent
    | cons first front =>
      obtain ⟨rfl, rfl⟩ := List.cons.inj heq
      exact hrest front event' back rfl

theorem firstViolation_cons {event : NameEvent} : FirstViolation scopes (event :: events) e ↔
    event.violation? scopes = some e ∨
      event.violation? scopes = none ∧ FirstViolation (event.after scopes) events e := by
  constructor
  · rintro ⟨front, event', back, heq, hfront, hviolation⟩
    cases front with
    | nil =>
      cases heq
      exact .inl hviolation
    | cons first front =>
      obtain ⟨rfl, rfl⟩ := List.cons.inj heq
      obtain ⟨hfirst, hfront⟩ := wellScoped_cons.1 hfront
      exact .inr ⟨hfirst, front, event', back, rfl, hfront, hviolation⟩
  · rintro (hviolation | ⟨hnone, front, event', back, rfl, hfront, hviolation⟩)
    · exact ⟨[], event, events, rfl, wellScoped_nil scopes, hviolation⟩
    · exact ⟨event :: front, event', back, rfl, wellScoped_cons.2 ⟨hnone, hfront⟩, hviolation⟩

/-- A walk comes to its end if and only if nothing is wrong with its events. -/
theorem walk_ok_iff : walk scopes events = .ok scopes' ↔
    WellScoped scopes events ∧ scopes' = events.foldl NameEvent.after scopes := by
  induction events generalizing scopes with
  | nil => simp [wellScoped_nil, eq_comm]
  | cons event events ih =>
    rw [walk_cons, wellScoped_cons, List.foldl_cons, NameEvent.step]
    cases event.violation? scopes with
    | some e => simp [bind, Except.bind]
    | none => simpa [bind, Except.bind] using ih

/-- A walk stops with the first violation. -/
theorem walk_error_iff : walk scopes events = .error e ↔ FirstViolation scopes events e := by
  induction events generalizing scopes with
  | nil => simp [FirstViolation]
  | cons event events ih =>
    rw [walk_cons, firstViolation_cons, NameEvent.step]
    cases event.violation? scopes with
    | some e => simp [bind, Except.bind]
    | none => simpa [bind, Except.bind] using ih

end

/-! ## Walks through trees -/

namespace NameEvent

/-- The walk through something with a scope of its own. -/
def enclosed (events : List NameEvent) : List NameEvent := enter :: events ++ [leave]

mutual

/-- The walk through an expression. -/
def ofExpression : Tree → List NameEvent
  | .node span (.ident name) => [use span name]
  | .node _ (.infixOp _ left right) => ofExpression left ++ ofExpression right
  | .node _ (.negate operand) => ofExpression operand
  | .node span (.call name arguments) =>
    call span name arguments.items.length :: ofArguments arguments
  | _ => []
termination_by structural t => t

/-- The walk through the items of an argument list. -/
def ofArguments : Tree → List NameEvent
  | .node _ (.program items) => ofExpressions items
  | .node _ (.list items) => ofExpressions items
  | _ => []
termination_by structural t => t

/-- The walk through expressions, one after the other. -/
def ofExpressions : List Tree → List NameEvent
  | [] => []
  | first :: rest => ofExpression first ++ ofExpressions rest
termination_by structural l => l

end

mutual

/-- The walk through a statement. -/
def ofStatement : Tree → List NameEvent
  | .node span (.letVar name value) => ofExpression value ++ [define span name .var]
  | .node span (.setVar name value) => ofExpression value ++ [use span name]
  | .node _ (.giveBack value) => ofExpression value
  | .node _ (.ifElse condition thenBody none) => ofExpression condition ++ enclosed (ofBody thenBody)
  | .node _ (.ifElse condition thenBody (some elseBody)) =>
    ofExpression condition ++ enclosed (ofBody thenBody) ++ enclosed (ofBody elseBody)
  | .node span (.forLoop index bound body) =>
    ofExpression bound ++ enclosed (define span index .var :: enclosed (ofBody body))
  | .node span shape => ofExpression (.node span shape)
termination_by structural t => t

/-- The walk through the statements of a body. -/
def ofBody : Tree → List NameEvent
  | .node _ (.program items) => ofStatements items
  | .node _ (.list items) => ofStatements items
  | _ => []
termination_by structural t => t

/-- The walk through statements, one after the other. -/
def ofStatements : List Tree → List NameEvent
  | [] => []
  | first :: rest => ofStatement first ++ ofStatements rest
termination_by structural l => l

end

/-- The walk through a function definition; other items have none. The name of the function is known
in its body, and the parameters share the scope of the body. -/
def ofDefinition : Tree → List NameEvent
  | .node span (.fnDef name parameters body) =>
    define span name (.function parameters.length) ::
      enclosed (parameters.map (define span · .var) ++ ofBody body)
  | _ => []

/-- The walk through the top-level statements of a unit, which make up a function if there are
any. -/
def ofTopLevel (unitName : String) : List Tree → List NameEvent
  | [] => []
  | first :: rest =>
    define first.span unitName (.function 0) :: enclosed (ofStatements (first :: rest))

/-- The walk through a unit: its function definitions in order, then its top-level statements. -/
def ofUnit (unitName : String) (tree : Tree) : List NameEvent :=
  tree.items.flatMap ofDefinition ++
    ofTopLevel unitName (tree.items.filter fun item => !Meaning.isDefinition item)

end NameEvent

/-! ## Symbol tables -/

/-- What a binding says of a name, apart from faults. -/
def Binding.kind : Binding → NameKind
  | .var => .var
  | .function arity _ => .function arity

/-- What the names of a scope stand for. -/
def Scope.names (scope : Scope) : Names := fun name =>
  (scope.lookup name).map fun symbol => symbol.binding.kind

namespace SymbolTable

/-- The scopes of a table, as the walk sees them. -/
def names (t : SymbolTable) : Scopes := t.scopes.map Scope.names

variable {t t' : SymbolTable} {name : String}

theorem names_popScope (h : t.popScope = .ok t') : t'.names = t.names.tail := by
  unfold popScope at h
  split at h
  · cases h
  · next scope rest hscopes =>
    cases h
    simp [names, scopes, hscopes]

/-- A name stands for the same in a table and on the walk. -/
theorem find?_names (t : SymbolTable) (name : String) :
    t.names.find? name = (t.lookup? name).map fun symbol => symbol.binding.kind := by
  unfold names Scopes.find? lookup?
  induction t.scopes with
  | nil => rfl
  | cons scope rest ih =>
    simp only [List.map_cons, List.findSome?_cons, Scope.names]
    cases scope.lookup name with
    | none => simpa using ih
    | some symbol => rfl

/-- Defining a name in a table is a step of the walk. -/
theorem define_names (t : SymbolTable) (name : String) (binding : Binding) (span : Span) :
    match (NameEvent.define span name binding.kind).step t.names with
    | .ok scopes => ∃ id t', t.define name binding = .ok (id, t') ∧ t'.names = scopes
    | .error e => ∃ e', t.define name binding = .error e' ∧ e'.locate span = e := by
  have hinnermost : t.names.innermost name =
      (t.innermost.lookup name).map fun symbol => symbol.binding.kind := rfl
  cases hlookup : t.innermost.lookup name with
  | some symbol =>
    simp only [NameEvent.step, NameEvent.violation?, hinnermost, hlookup, define]
    exact ⟨_, rfl, rfl⟩
  | none =>
    simp only [NameEvent.step, NameEvent.violation?, hinnermost, hlookup, define]
    refine ⟨_, _, rfl, ?_⟩
    show Scope.names _ :: _ = _ :: _
    refine congrArg₂ _ (funext fun other => ?_) rfl
    rw [Function.update_apply]
    unfold Scope.names
    rw [List.lookup_cons]
    by_cases hother : other = name
    · simp [hother]
    · rw [if_neg hother, show (other == name) = false from beq_false_of_ne hother]
      rfl

/-- The names of a table of exports are those of the exports. -/
theorem Tabulates.names_eq {known : List Export} (h : t.Tabulates known) :
    t.names = Scopes.ofExports known := by
  have hscopes : t.scopes = [t.innermost] := by rw [scopes, h.single]
  unfold SymbolTable.names Scopes.ofExports
  rw [hscopes]
  refine congrArg (fun names => [names]) (funext fun name => ?_)
  have hlookup : t.innermost.lookup name = t.lookup? name := by
    unfold lookup?
    rw [hscopes]
    cases hinner : t.innermost.lookup name <;> simp [hinner]
  rw [Scope.names, hlookup]
  cases hfind : known.find? (·.name = name) with
  | some e =>
    obtain ⟨s, hs, hbinding⟩ := h.lookup_of_export (List.mem_of_find?_eq_some hfind)
    have hname : e.name = name := by simpa using List.find?_some hfind
    rw [hname] at hs
    rw [hs]
    exact congrArg (fun binding => some (Binding.kind binding)) hbinding
  | none =>
    cases hs : t.lookup? name with
    | none => rfl
    | some s =>
      obtain ⟨e, he, hname, -⟩ := h.export_of_lookup hs
      have hno := List.find?_eq_none.1 hfind e he
      simp [hname] at hno

end SymbolTable

end Abacus.Lowering
