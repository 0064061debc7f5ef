import Abacus.Lowering.SymbolTable

/-!
# Operations on names in scope

What each operation does to the scopes, name by name, and that an operation which fails does nothing.

* `Operation`, `Operation.outcome`, `Operation.after` — an operation, what it answers, and the table
  behind it;
* `InPlace` — the same on one table that is changed where it stands; `inPlace_eq` says that it comes to
  the same, so a failing operation fails before it has changed anything;
* `symbolAt?` — what a name stands for in one of the scopes, with a lemma for each operation.
-/

namespace Abacus.Lowering.SymbolTable

variable {t t' : SymbolTable} {name other : String} {binding : Binding} {x : SymbolId} {s : Symbol}

/-! ## Operations -/

/-- What is asked of a table. -/
inductive Operation where
  | push
  | pop
  | define (name : String) (binding : Binding)
  | redefine (name : String) (binding : Binding)
  | lookup (name : String)
  | resolve (name : String)
  | findVariable (name : String)
  | findFunction (name : String)
  deriving DecidableEq, Repr

/-- What a table answers. -/
inductive Reply where
  | done
  | id (x : SymbolId)
  | symbol (s? : Option Symbol)
  | function (x : SymbolId) (arity : Nat) (mayFault : Bool)
  deriving DecidableEq, Repr

namespace Operation

/-- An operation gives an answer and the next table, or it fails. -/
def perform (t : SymbolTable) : Operation → Except LoweringError (Reply × SymbolTable)
  | push => .ok (.done, t.pushScope)
  | pop => t.popScope.map fun after => (.done, after)
  | define name binding => (t.define name binding).map fun (x, after) => (.id x, after)
  | redefine name binding => (t.redefine name binding).map fun (x, after) => (.id x, after)
  | lookup name => .ok (.symbol (t.lookup? name), t)
  | resolve name => (t.resolve name).map fun x => (.id x, t)
  | findVariable name => (t.findVariable name).map fun x => (.id x, t)
  | findFunction name => (t.findFunction name).map fun (x, arity, mayFault) => (.function x arity mayFault, t)

/-- What an operation answers. -/
def outcome (t : SymbolTable) (o : Operation) : Except LoweringError Reply :=
  (o.perform t).map Prod.fst

/-- The table behind an operation. -/
def after (t : SymbolTable) (o : Operation) : SymbolTable :=
  match o.perform t with
  | .ok (_, after) => after
  | .error _ => t

theorem after_of_error {o : Operation} {e : LoweringError} (h : o.outcome t = .error e) : o.after t = t := by
  unfold outcome at h
  unfold after
  cases hperform : o.perform t with
  | ok result =>
    rw [hperform] at h
    cases h
  | error e' => rfl

end Operation

/-! ## In place -/

/-- Parts of an operation that change one table where it stands. What has been changed before an error
stays changed. -/
abbrev InPlace (α : Type) := ExceptT LoweringError (StateM SymbolTable) α

namespace InPlace

/-- Closes the innermost scope. -/
def popScope : InPlace Unit := do
  if (← get).depth ≤ 1 then throw (.ofDefect .outermostScope)
  modify fun t => match t.enclosing with
    | [] => t
    | scope :: rest => { t with innermost := scope, enclosing := rest }

/-- Takes the next identity. -/
def takeId : InPlace SymbolId := modifyGet fun t => (⟨t.fresh⟩, { t with fresh := t.fresh + 1 })

/-- Defines a name in the innermost scope. -/
def define (name : String) (binding : Binding) : InPlace SymbolId := do
  if ((← get).innermost.lookup name).isSome then throw (.ofCause (.duplicate name))
  let id ← takeId
  modify fun t => { t with innermost := (name, ⟨id, binding⟩) :: t.innermost }
  return id

/-- Gives a visible name another meaning. -/
def redefine (name : String) (binding : Binding) : InPlace SymbolId := do
  let some symbol := (← get).lookup? name | throw (.ofCause (.unknown .symbol name))
  modify fun t => match rebindFirst name binding t.scopes with
    | [] => t
    | innermost :: enclosing => { t with innermost, enclosing }
  return symbol.id

/-- Asks something of the table. -/
def ask {α : Type} (f : SymbolTable → Except LoweringError α) : InPlace α := do
  liftExcept (f (← get))

/-- A part of an operation does what is given: the answer and the next table, or an error with the table
as it was. -/
def Does {α : Type} (work : InPlace α) (t : SymbolTable) (result : Except LoweringError (α × SymbolTable)) :
    Prop :=
  work t = match result with
    | .ok (a, after) => (.ok a, after)
    | .error e => (.error e, t)

section

variable {α β : Type} {work : InPlace α}

theorem get_bind (f : SymbolTable → InPlace β) (t : SymbolTable) : (get >>= f) t = f t t := rfl

theorem Does.map {result : Except LoweringError (α × SymbolTable)} (h : Does work t result) (f : α → β) :
    Does (work >>= fun a => pure (f a)) t (result.map fun (a, after) => (f a, after)) := by
  show (fun r : Except LoweringError α × SymbolTable =>
    (ExceptT.bindCont (fun a => pure (f a)) r.1 : StateM SymbolTable _) r.2) (work t) = _
  rw [show work t = _ from h]
  cases result <;> rfl

theorem does_ask (f : SymbolTable → Except LoweringError α) (g : α → β) (t : SymbolTable) :
    Does (ask f >>= fun a => pure (g a)) t ((f t).map fun a => (g a, t)) := by
  have hlift : ∀ r : Except LoweringError α,
      Does (liftExcept r >>= fun a => pure (g a)) t (r.map fun a => (g a, t)) := by
    rintro (e | a) <;> rfl
  exact hlift (f t)

theorem does_popScope (t : SymbolTable) (a : β) :
    Does (popScope >>= fun _ => pure a) t (t.popScope.map fun after => (a, after)) := by
  obtain ⟨innermost, enclosing, fresh⟩ := t
  cases enclosing <;> rfl

theorem does_define (t : SymbolTable) (name : String) (binding : Binding) :
    Does (define name binding) t (t.define name binding) := by
  unfold Does define SymbolTable.define
  rw [get_bind]
  cases t.innermost.lookup name <;> rfl

theorem does_redefine (t : SymbolTable) (name : String) (binding : Binding) :
    Does (redefine name binding) t (t.redefine name binding) := by
  unfold Does redefine SymbolTable.redefine
  rw [get_bind]
  cases t.lookup? name with
  | none => rfl
  | some symbol =>
    show (Except.ok symbol.id, match rebindFirst name binding t.scopes with
      | [] => t
      | innermost :: enclosing => { t with innermost, enclosing }) = _
    cases rebindFirst name binding t.scopes <;> rfl

end

end InPlace

/-- The operations on a table that is changed where it stands. -/
def Operation.inPlace : Operation → InPlace Reply
  | push => do
    modify pushScope
    return .done
  | pop => do
    InPlace.popScope
    return .done
  | define name binding => return .id (← InPlace.define name binding)
  | redefine name binding => return .id (← InPlace.redefine name binding)
  | lookup name => return .symbol ((← get).lookup? name)
  | resolve name => return .id (← InPlace.ask (·.resolve name))
  | findVariable name => return .id (← InPlace.ask (·.findVariable name))
  | findFunction name => do
    let (x, arity, mayFault) ← InPlace.ask (·.findFunction name)
    return .function x arity mayFault

/-- On one table that is changed where it stands an operation comes to the same. If it fails it has changed
nothing. -/
theorem Operation.inPlace_eq (t : SymbolTable) (o : Operation) : o.inPlace t = (o.outcome t, o.after t) := by
  have hdoes : InPlace.Does o.inPlace t (o.perform t) := by
    cases o with
    | push | lookup => rfl
    | pop => exact InPlace.does_popScope t Reply.done
    | define name binding => exact (InPlace.does_define t name binding).map Reply.id
    | redefine name binding => exact (InPlace.does_redefine t name binding).map Reply.id
    | resolve name => exact InPlace.does_ask (·.resolve name) Reply.id t
    | findVariable name => exact InPlace.does_ask (·.findVariable name) Reply.id t
    | findFunction name =>
      exact InPlace.does_ask (·.findFunction name) (fun f => Reply.function f.1 f.2.1 f.2.2) t
  unfold outcome after
  rw [show o.inPlace t = _ from hdoes]
  cases o.perform t <;> rfl

/-! ## One scope after the other -/

/-- What a name stands for in the scope that has `k` scopes inside. -/
def symbolAt? (t : SymbolTable) (k : Nat) (name : String) : Option Symbol :=
  (t.scopes.getD k []).lookup name

/-- A name stands for what it stands for in the innermost of the scopes that define it. -/
theorem lookup?_iff : t.lookup? name = some s ↔
    ∃ k, t.symbolAt? k name = some s ∧ ∀ j < k, t.symbolAt? j name = none := by
  unfold lookup? symbolAt?
  induction t.scopes with
  | nil => simp
  | cons scope rest ih =>
    rw [List.findSome?_cons]
    cases hscope : scope.lookup name with
    | some first =>
      constructor
      · intro h
        exact ⟨0, hscope.trans h, nofun⟩
      · rintro ⟨k | k, h, hinside⟩
        · exact hscope.symm.trans h
        · have hnone : scope.lookup name = none := hinside 0 k.succ_pos
          cases hnone.symm.trans hscope
    | none =>
      refine ih.trans ⟨?_, ?_⟩
      · rintro ⟨k, h, hinside⟩
        refine ⟨k + 1, h, fun j hj => ?_⟩
        cases j with
        | zero => exact hscope
        | succ j => exact hinside j (Nat.lt_of_succ_lt_succ hj)
      · rintro ⟨k | k, h, hinside⟩
        · cases hscope.symm.trans h
        · exact ⟨k, h, fun j hj => hinside (j + 1) (Nat.succ_lt_succ hj)⟩

@[simp] theorem symbolAt?_pushScope_zero : t.pushScope.symbolAt? 0 name = none := rfl

@[simp] theorem symbolAt?_pushScope_succ (k : Nat) :
    t.pushScope.symbolAt? (k + 1) name = t.symbolAt? k name := rfl

theorem popScope_ok (h : t.popScope = .ok t') :
    t.enclosing.length = t'.enclosing.length + 1 ∧ t'.fresh = t.fresh ∧
      ∀ k name, t'.symbolAt? k name = t.symbolAt? (k + 1) name := by
  obtain ⟨innermost, enclosing, fresh⟩ := t
  cases enclosing with
  | nil => cases h
  | cons scope rest =>
    cases h
    exact ⟨rfl, rfl, fun _ _ => rfl⟩

theorem define_ok (h : t.define name binding = .ok (x, t')) : x = ⟨t.fresh⟩ ∧ t' = { t with
    innermost := (name, ⟨x, binding⟩) :: t.innermost, fresh := t.fresh + 1 } := by
  unfold define at h
  split at h
  · cases h
  · cases h
    exact ⟨rfl, rfl⟩

theorem define_new (h : t.define name binding = .ok (x, t')) : t.symbolAt? 0 name = none := by
  unfold define at h
  split at h
  · cases h
  · assumption

theorem symbolAt?_define_zero (fresh : Nat) :
    symbolAt? ⟨(name, s) :: t.innermost, t.enclosing, fresh⟩ 0 other =
      if other = name then some s else t.symbolAt? 0 other := by
  show List.lookup other ((name, s) :: t.innermost) = _
  rw [List.lookup_cons]
  by_cases h : other = name
  · simp [h]
  · rw [beq_false_of_ne h, if_neg h]
    rfl

theorem lookup_rebind (scope : Scope) : (rebind scope name binding).lookup other =
    if other = name then (scope.lookup other).map fun s => { s with binding := binding }
    else scope.lookup other := by
  induction scope with
  | nil => simp [rebind]
  | cons entry rest ih =>
    obtain ⟨first, s⟩ := entry
    by_cases hfirst : first = name
    · subst hfirst
      by_cases hother : other = first
      · simp [rebind, hother]
      · simpa [rebind, List.lookup_cons, beq_false_of_ne hother, hother] using ih
    · by_cases hother : other = first
      · simp [rebind, hother, hfirst]
      · simpa [rebind, List.lookup_cons, hfirst, beq_false_of_ne hother] using ih

@[simp] theorem length_rebindFirst (scopes : List Scope) :
    (rebindFirst name binding scopes).length = scopes.length := by
  induction scopes with
  | nil => rfl
  | cons scope rest ih =>
    unfold rebindFirst
    split
    · rfl
    · exact congrArg (· + 1) ih

/-- The innermost of the scopes that define a name gets another meaning for it, and nothing else changes. -/
theorem lookup_rebindFirst {scopes : List Scope} {k : Nat}
    (h : (scopes.getD k []).lookup name = some s)
    (hinside : ∀ j < k, (scopes.getD j []).lookup name = none) (j : Nat) (other : String) :
    ((rebindFirst name binding scopes).getD j []).lookup other =
      if j = k ∧ other = name then some { s with binding := binding }
      else (scopes.getD j []).lookup other := by
  induction scopes generalizing k j with
  | nil => cases h
  | cons scope rest ih =>
    cases k with
    | zero =>
      replace h : scope.lookup name = some s := h
      rw [rebindFirst, h, if_pos Option.isSome_some]
      cases j with
      | zero =>
        refine (lookup_rebind scope).trans ?_
        by_cases hother : other = name
        · simp [hother, h]
        · simp [hother]
      | succ j => simp
    | succ k =>
      have hscope : scope.lookup name = none := hinside 0 k.succ_pos
      rw [rebindFirst, hscope, if_neg (by simp)]
      cases j with
      | zero => simp
      | succ j =>
        simpa using ih h (fun j hj => hinside (j + 1) (Nat.succ_lt_succ hj)) j

theorem redefine_ok (h : t.redefine name binding = .ok (x, t')) :
    ∃ s k, t.lookup? name = some s ∧ s.id = x ∧ t.symbolAt? k name = some s ∧
      (∀ j other, t'.symbolAt? j other =
        if j = k ∧ other = name then some { s with binding := binding } else t.symbolAt? j other) ∧
      t'.enclosing.length = t.enclosing.length ∧ t'.fresh = t.fresh := by
  unfold redefine at h
  split at h
  · cases h
  · next s hlookup =>
    obtain ⟨k, hk, hinside⟩ := lookup?_iff.1 hlookup
    have hlength : (rebindFirst name binding t.scopes).length = t.enclosing.length + 1 :=
      length_rebindFirst _
    have hsymbol : ∀ j other, ((rebindFirst name binding t.scopes).getD j []).lookup other = _ :=
      lookup_rebindFirst hk hinside
    cases hscopes : rebindFirst name binding t.scopes with
    | nil => simp [hscopes] at hlength
    | cons innermost enclosing =>
      rw [hscopes] at h hlength hsymbol
      cases h
      exact ⟨s, k, hlookup, rfl, hk, hsymbol, Nat.succ_inj.1 hlength, rfl⟩

end Abacus.Lowering.SymbolTable
