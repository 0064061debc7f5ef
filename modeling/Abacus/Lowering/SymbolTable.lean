import Abacus.Lowering.Error

/-!
# Names in scope

A `SymbolTable` is a stack of scopes. Names are looked up from the innermost scope outwards and
defined in the innermost one. Every definition gets an identity of its own, never given again, so
that what is known about a symbol stays its own after its scope is gone.
-/

namespace Abacus.Lowering

/-- What a name stands for. -/
inductive Binding where
  | var
  | function (arity : Nat) (mayFault : Bool)
  deriving DecidableEq, Repr

/-- A defined name: its identity and what it stands for. -/
structure Symbol where
  id : SymbolId
  binding : Binding
  deriving DecidableEq, Repr

/-- The names defined in one scope. -/
abbrev Scope := List (String × Symbol)

/-- The scopes, of which there is always at least one, and the number of the next symbol. -/
structure SymbolTable where
  innermost : Scope
  enclosing : List Scope
  fresh : Nat
  deriving DecidableEq, Repr

namespace SymbolTable

/-- A table with one scope and no names. -/
def empty : SymbolTable := ⟨[], [], 0⟩

/-- The scopes from the innermost outwards. -/
def scopes (t : SymbolTable) : List Scope := t.innermost :: t.enclosing

/-- The number of scopes. -/
def depth (t : SymbolTable) : Nat := t.scopes.length

/-- Opens a scope. -/
def pushScope (t : SymbolTable) : SymbolTable :=
  { t with innermost := [], enclosing := t.scopes }

/-- Closes the innermost scope. The outermost one stays. -/
def popScope (t : SymbolTable) : Except LoweringError SymbolTable :=
  match t.enclosing with
  | [] => .error (.ofDefect .outermostScope)
  | scope :: rest => .ok { t with innermost := scope, enclosing := rest }

/-- The symbol that a name stands for: that of the innermost scope that defines it. -/
def lookup? (t : SymbolTable) (name : String) : Option Symbol :=
  t.scopes.findSome? (List.lookup name)

/-- Closing the scope that was opened last gives back the table. -/
theorem popScope_pushScope (t : SymbolTable) : t.pushScope.popScope = .ok t := rfl

/-- Defines a name in the innermost scope, in which it must be new. -/
def define (t : SymbolTable) (name : String) (binding : Binding) :
    Except LoweringError (SymbolId × SymbolTable) :=
  match t.innermost.lookup name with
  | some _ => .error (.ofCause (.duplicate name))
  | none =>
    let id : SymbolId := ⟨t.fresh⟩
    .ok (id, { t with innermost := (name, ⟨id, binding⟩) :: t.innermost, fresh := t.fresh + 1 })

/-- A name stands for what it was defined as last. -/
theorem lookup?_define {t after : SymbolTable} {name : String} {binding : Binding} {id : SymbolId}
    (h : t.define name binding = .ok (id, after)) : after.lookup? name = some ⟨id, binding⟩ := by
  unfold define at h
  split at h
  · cases h
  · cases h
    simp [lookup?, scopes]

/-- Gives a name of a scope another meaning; its identity stays. -/
def rebind (scope : Scope) (name : String) (binding : Binding) : Scope :=
  scope.map fun (other, symbol) =>
    if other = name then (other, { symbol with binding := binding }) else (other, symbol)

/-- Gives a name another meaning in the innermost of the scopes that define it. -/
def rebindFirst (name : String) (binding : Binding) : List Scope → List Scope
  | [] => []
  | scope :: rest =>
    if (scope.lookup name).isSome then rebind scope name binding :: rest
    else scope :: rebindFirst name binding rest

/-- Gives a visible name another meaning; its identity stays. -/
def redefine (t : SymbolTable) (name : String) (binding : Binding) :
    Except LoweringError (SymbolId × SymbolTable) :=
  match t.lookup? name with
  | none => .error (.ofCause (.unknown .symbol name))
  | some symbol =>
    match rebindFirst name binding t.scopes with
    | [] => .ok (symbol.id, t)
    | innermost :: enclosing => .ok (symbol.id, { t with innermost, enclosing })

/-- The identity of a visible name. -/
def resolve (t : SymbolTable) (name : String) : Except LoweringError SymbolId :=
  match t.lookup? name with
  | some symbol => .ok symbol.id
  | none => .error (.ofCause (.unknown .symbol name))

/-- The identity of a name that stands for a variable. -/
def findVariable (t : SymbolTable) (name : String) : Except LoweringError SymbolId :=
  match t.lookup? name with
  | some ⟨id, .var⟩ => .ok id
  | _ => .error (.ofCause (.unknown .var name))

/-- Identity, arity and fault flag of a name that stands for a function. -/
def findFunction (t : SymbolTable) (name : String) :
    Except LoweringError (SymbolId × Nat × Bool) :=
  match t.lookup? name with
  | some ⟨id, .function arity mayFault⟩ => .ok (id, arity, mayFault)
  | _ => .error (.ofCause (.unknown .function name))

end SymbolTable

end Abacus.Lowering
