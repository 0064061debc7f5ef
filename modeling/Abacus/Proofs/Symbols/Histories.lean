import Mathlib.Data.List.Induction
import Mathlib.Data.List.Nodup
import Abacus.Proofs.Symbols.Operations

/-!
# Histories of names in scope

Every answer of a table of symbols follows from the operations that came before it and what was answered to
them, without a look into the table: a name stands for what was defined last in the innermost of the scopes
that are still open and define it.

* `run` — a history: the operations with their answers, and the table behind them;
* `scopesInside?`, `DefinedIn`, `Visible` — what a history says about scopes and names;
* `Answered.Follows` — an answer is the one that follows from the history before;
* `Recorded` — a table is what a history says; every operation keeps this;
* `Balanced` — operations that close the scopes they open, and no others;
* `behaves_as_scopes` — the result for all histories.
-/

namespace Abacus.Lowering.SymbolTable

/-! ## Histories -/

/-- An operation, and what was answered. -/
structure Answered where
  operation : Operation
  outcome : Except LoweringError Reply

/-- The history of some operations on a table, in the order of time, and the table behind them. A failing
operation leaves the table as it is. -/
def run (t : SymbolTable) : List Operation → List Answered × SymbolTable
  | [] => ([], t)
  | o :: rest =>
    let (history, after) := run (o.after t) rest
    (⟨o, o.outcome t⟩ :: history, after)

namespace Answered

/-- The number of scopes that are open inside some scope after an operation, if there were `n` before. There
is none if the scope itself has been closed. -/
def inside? (n : Nat) : Answered → Option Nat
  | ⟨.push, .ok _⟩ => some (n + 1)
  | ⟨.pop, .ok _⟩ => if n = 0 then none else some (n - 1)
  | _ => some n

/-- The identity that has been given to a name. -/
def issued? : Answered → Option SymbolId
  | ⟨.define _ _, .ok (.id x)⟩ => some x
  | _ => none

/-- What a symbol has been defined as, or been given another meaning. -/
def binds? (x : SymbolId) : Answered → Option Binding
  | ⟨.define _ binding, .ok (.id y)⟩ | ⟨.redefine _ binding, .ok (.id y)⟩ =>
    if y = x then some binding else none
  | _ => none

/-- The other meaning that a symbol has been given. -/
def redefines? (x : SymbolId) : Answered → Option Binding
  | ⟨.redefine _ binding, .ok (.id y)⟩ => if y = x then some binding else none
  | _ => none

end Answered

section

variable (history : List Answered)

/-- The number of scopes that are open inside some scope after a history, if there were `n` before. -/
def scopesInside? (n : Nat) : Option Nat := history.foldlM Answered.inside? n

/-- The identities that have been given. -/
def issued : List SymbolId := history.filterMap Answered.issued?

/-- What a symbol stands for: the binding that it was given last. -/
def binding? (x : SymbolId) : Option Binding := (history.filterMap (Answered.binds? x)).getLast?

/-- The meaning that a symbol was given last by a redefinition. -/
def redefined? (x : SymbolId) : Option Binding := (history.filterMap (Answered.redefines? x)).getLast?

/-- A name has been defined, as `x`, in a scope that is still open and has `n` open scopes inside. -/
def DefinedIn (name : String) (x : SymbolId) (n : Nat) : Prop :=
  ∃ before binding later, history = before ++ ⟨.define name binding, .ok (.id x)⟩ :: later ∧
    scopesInside? later 0 = some n

/-- A name stands for a symbol: the one as which it has been defined in the innermost of the scopes that are
still open and define it, with the binding that this symbol was given last. -/
def Visible (name : String) (s : Symbol) : Prop :=
  ∃ n, DefinedIn history name s.id n ∧ (∀ x m, DefinedIn history name x m → n ≤ m) ∧
    binding? history s.id = some s.binding

/-- The symbol that a name stands for, if there is one. -/
def Finds (name : String) (s? : Option Symbol) : Prop := ∀ s, s? = some s ↔ Visible history name s

/-- An answer is the one that follows from the history before. -/
def Answered.Follows (a : Answered) : Prop :=
  match a.operation with
  | .push => a.outcome = .ok .done
  | .pop => ∃ n, scopesInside? history 0 = some n ∧
    a.outcome = if n = 0 then .error (.ofDefect .outermostScope) else .ok .done
  | .define name _ =>
    (∃ x, DefinedIn history name x 0) ∧ a.outcome = .error (.ofCause (.duplicate name)) ∨
      (∀ x, ¬ DefinedIn history name x 0) ∧ ∃ x ∉ issued history, a.outcome = .ok (.id x)
  | .redefine name _ | .resolve name => ∃ s?, Finds history name s? ∧ a.outcome = match s? with
    | some s => .ok (.id s.id)
    | none => .error (.ofCause (.unknown .symbol name))
  | .lookup name => ∃ s?, Finds history name s? ∧ a.outcome = .ok (.symbol s?)
  | .findVariable name => ∃ s?, Finds history name s? ∧ a.outcome = match s? with
    | some ⟨x, .var⟩ => .ok (.id x)
    | _ => .error (.ofCause (.unknown .var name))
  | .findFunction name => ∃ s?, Finds history name s? ∧ a.outcome = match s? with
    | some ⟨x, .function arity mayFault⟩ => .ok (.function x arity mayFault)
    | _ => .error (.ofCause (.unknown .function name))

end

variable {t t' : SymbolTable} {history later : List Answered} {name other : String} {x y : SymbolId}
  {s : Symbol} {n m : Nat} {a : Answered} {o : Operation}

theorem run_append (t : SymbolTable) (ops more : List Operation) : run t (ops ++ more) =
    ((run t ops).1 ++ (run (run t ops).2 more).1, (run (run t ops).2 more).2) := by
  induction ops generalizing t with
  | nil => rfl
  | cons o ops ih =>
    show (_ :: (run (o.after t) (ops ++ more)).1, (run (o.after t) (ops ++ more)).2) = _
    rw [ih]
    rfl

/-! ## What a history says -/

theorem scopesInside?_append (n : Nat) : scopesInside? (history ++ later) n =
    (scopesInside? history n).bind (scopesInside? later) :=
  List.foldlM_append

theorem inside?_shift (k : Nat) (h : a.inside? n = some m) : a.inside? (n + k) = some (m + k) := by
  unfold Answered.inside? at h ⊢
  split at h
  · cases h
    exact congrArg some (Nat.add_right_comm n k 1)
  · split at h
    · cases h
    · cases h
      rw [if_neg (by omega)]
      exact congrArg some (by omega)
  · cases h
    rfl

/-- Scopes that are open further outside play no part. -/
theorem scopesInside?_shift (k : Nat) (h : scopesInside? history n = some m) :
    scopesInside? history (n + k) = some (m + k) := by
  induction history generalizing n with
  | nil =>
    cases h
    rfl
  | cons a history ih =>
    obtain ⟨i, hi, h⟩ := Option.bind_eq_some_iff.1 h
    show (a.inside? (n + k)).bind (scopesInside? history) = _
    rw [inside?_shift k hi]
    exact ih h

theorem issued_append : issued (history ++ later) = issued history ++ issued later := List.filterMap_append

theorem binding?_append (x : SymbolId) :
    binding? (history ++ later) x = (binding? later x).or (binding? history x) := by
  unfold binding?
  rw [List.filterMap_append, List.getLast?_append]

theorem scopesInside?_singleton (n : Nat) : scopesInside? [a] n = a.inside? n := by
  unfold scopesInside?
  cases h : a.inside? n <;> simp [h]

theorem issued_singleton : issued [a] = a.issued?.toList := by
  unfold issued
  cases h : a.issued? <;> simp [h]

theorem binding?_singleton : binding? [a] x = a.binds? x := by
  unfold binding?
  cases h : a.binds? x <;> simp [h]

theorem definedIn_append : DefinedIn (history ++ later) name x n ↔
    (∃ m, DefinedIn history name x m ∧ scopesInside? later m = some n) ∨ DefinedIn later name x n := by
  constructor
  · rintro ⟨before, binding, rest, hsplit, hinside⟩
    rcases List.append_eq_append_iff.1 hsplit with ⟨front, rfl, hlater⟩ | ⟨back, hhistory, hrest⟩
    · exact .inr ⟨front, binding, rest, hlater, hinside⟩
    · cases back with
      | nil => exact .inr ⟨[], binding, rest, hrest.symm, hinside⟩
      | cons first back =>
        obtain ⟨rfl, rfl⟩ : _ ∧ rest = back ++ later := List.cons.inj hrest
        rw [scopesInside?_append] at hinside
        obtain ⟨m, hm, hinside⟩ := Option.bind_eq_some_iff.1 hinside
        exact .inl ⟨m, ⟨before, binding, back, hhistory, hm⟩, hinside⟩
  · rintro (⟨m, ⟨before, binding, rest, rfl, hm⟩, hinside⟩ | ⟨before, binding, rest, rfl, hinside⟩)
    · refine ⟨before, binding, rest ++ later, by simp, ?_⟩
      rw [scopesInside?_append, hm]
      exact hinside
    · exact ⟨history ++ before, binding, rest, by simp, hinside⟩

theorem definedIn_singleton : DefinedIn [a] name x n ↔
    n = 0 ∧ ∃ binding, a = ⟨.define name binding, .ok (.id x)⟩ := by
  constructor
  · rintro ⟨before, binding, rest, hsplit, hinside⟩
    cases before with
    | nil =>
      cases hsplit
      exact ⟨(Option.some_inj.1 hinside).symm, binding, rfl⟩
    | cons first before => simp at hsplit
  · rintro ⟨rfl, binding, rfl⟩
    exact ⟨[], binding, [], rfl, rfl⟩

theorem DefinedIn.mem_issued (h : DefinedIn history name x n) : x ∈ issued history := by
  obtain ⟨before, binding, rest, rfl, -⟩ := h
  rw [issued_append]
  exact List.mem_append_right _ List.mem_cons_self

theorem not_definedIn_of_issued (ha : a.issued? = none) : ¬ DefinedIn [a] name x n := by
  intro h
  have hx := h.mem_issued
  rw [issued_singleton, ha] at hx
  cases hx

/-- An identity belongs to one name, in one scope. -/
theorem DefinedIn.unique (hissued : (issued history).Nodup) (h : DefinedIn history name x n)
    (h' : DefinedIn history other x m) : name = other ∧ n = m := by
  induction history using List.reverseRecOn generalizing n m with
  | nil =>
    obtain ⟨before, binding, rest, hsplit, -⟩ := h
    simp at hsplit
  | append_singleton history a ih =>
    rw [issued_append, List.nodup_append] at hissued
    obtain ⟨hold, -, hnew⟩ := hissued
    rcases definedIn_append.1 h with ⟨k, hk, hkn⟩ | h <;>
      rcases definedIn_append.1 h' with ⟨k', hk', hkm⟩ | h'
    · -- The operation at the end has opened or closed the same scopes inside.
      obtain ⟨rfl, rfl⟩ := ih hold hk hk'
      exact ⟨rfl, Option.some_inj.1 (hkn.symm.trans hkm)⟩
    · exact absurd rfl (hnew x hk.mem_issued x h'.mem_issued)
    · exact absurd rfl (hnew x hk'.mem_issued x h.mem_issued)
    · obtain ⟨rfl, binding, ha⟩ := definedIn_singleton.1 h
      obtain ⟨rfl, binding', ha'⟩ := definedIn_singleton.1 h'
      cases ha.symm.trans ha'
      exact ⟨rfl, rfl⟩

/-! ## Tables -/

/-- A table is what a history says. -/
structure Recorded (history : List Answered) (t : SymbolTable) : Prop where
  defined : ∀ k name x, (t.symbolAt? k name).map (·.id) = some x ↔ DefinedIn history name x k
  bound : ∀ k name s, t.symbolAt? k name = some s → binding? history s.id = some s.binding
  depth : scopesInside? history 0 = some t.enclosing.length
  once : (issued history).Nodup
  fresh : ∀ x ∈ issued history, x.number < t.fresh

/-- So it finds what the history says that a name stands for. -/
theorem Recorded.finds (h : Recorded history t) (name : String) :
    Finds history name (t.lookup? name) := by
  intro s
  rw [lookup?_iff]
  constructor
  · rintro ⟨k, hk, hinside⟩
    refine ⟨k, (h.defined k name s.id).1 (congrArg _ hk), fun x m hm => ?_, h.bound k name s hk⟩
    by_contra hlt
    have hsome := (h.defined m name x).2 hm
    rw [hinside m (Nat.not_le.1 hlt)] at hsome
    cases hsome
  · rintro ⟨k, hdefined, hinnermost, hbinding⟩
    obtain ⟨s', hs', hid⟩ := Option.map_eq_some_iff.1 ((h.defined k name s.id).2 hdefined)
    have hbound := h.bound k name s' hs'
    rw [hid, hbinding] at hbound
    obtain rfl : s' = s := by
      cases s; cases s'
      cases hbound
      cases hid
      rfl
    refine ⟨k, hs', fun j hj => ?_⟩
    cases hsymbol : t.symbolAt? j name with
    | none => rfl
    | some s'' =>
      have hle := hinnermost _ j ((h.defined j name s''.id).1 (congrArg _ hsymbol))
      exact absurd hle (Nat.not_le.2 hj)

theorem Recorded.start (first : Nat) : Recorded [] { empty with fresh := first } where
  defined k name x := by
    have hnone : symbolAt? { empty with fresh := first } k name = none := by
      cases k <;> rfl
    simp [hnone, DefinedIn]
  bound k name s h := by cases k <;> cases h
  depth := rfl
  once := List.nodup_nil
  fresh := nofun

/-- An operation makes one table of another, in which every symbol is where the answer says. -/
structure Answered.Makes (a : Answered) (t t' : SymbolTable) : Prop where
  defined : ∀ k name x, (t'.symbolAt? k name).map (·.id) = some x ↔
    (∃ m, (t.symbolAt? m name).map (·.id) = some x ∧ a.inside? m = some k) ∨ DefinedIn [a] name x k
  bound : ∀ k name s, t'.symbolAt? k name = some s → a.binds? s.id = some s.binding ∨
    a.binds? s.id = none ∧ ∃ m, t.symbolAt? m name = some s
  depth : a.inside? t.enclosing.length = some t'.enclosing.length
  fresh : t.fresh ≤ t'.fresh
  issued : ∀ x, a.issued? = some x → x = ⟨t.fresh⟩ ∧ t'.fresh = t.fresh + 1

theorem Recorded.then (h : Recorded history t) (ha : a.Makes t t') : Recorded (history ++ [a]) t' where
  defined k name x := by
    rw [definedIn_append, ha.defined]
    simp only [h.defined, scopesInside?_singleton]
  bound k name s hs := by
    rw [binding?_append, binding?_singleton]
    rcases ha.bound k name s hs with hnew | ⟨hnone, m, hm⟩
    · rw [hnew]
      rfl
    · rw [hnone, h.bound m name s hm]
      rfl
  depth := by
    rw [scopesInside?_append, h.depth]
    exact (scopesInside?_singleton _).trans ha.depth
  once := by
    rw [issued_append, issued_singleton, List.nodup_append]
    refine ⟨h.once, Option.toList_nodup _, fun x hx y hy hxy => ?_⟩
    have hlt := h.fresh x hx
    rw [hxy, (ha.issued y (Option.mem_toList.1 hy)).1] at hlt
    exact Nat.lt_irrefl _ hlt
  fresh x hx := by
    rw [issued_append, issued_singleton] at hx
    rcases List.mem_append.1 hx with hx | hx
    · exact Nat.lt_of_lt_of_le (h.fresh x hx) ha.fresh
    · obtain ⟨rfl, hfresh⟩ := ha.issued x (Option.mem_toList.1 hx)
      rw [hfresh]
      exact Nat.lt_succ_self _

/-! ## One operation -/

/-- An operation that neither opens nor closes a scope, and gives nothing to a symbol. -/
structure Answered.Quiet (a : Answered) : Prop where
  inside : ∀ n, a.inside? n = some n
  issued : a.issued? = none
  binds : ∀ x, a.binds? x = none

theorem Answered.Quiet.makes (ha : a.Quiet) (t : SymbolTable) : a.Makes t t where
  defined k name x := by
    simp [ha.inside, not_definedIn_of_issued ha.issued]
  bound k name s hs := .inr ⟨ha.binds s.id, k, hs⟩
  depth := ha.inside _
  fresh := Nat.le_refl _
  issued x hx := by
    rw [ha.issued] at hx
    cases hx

theorem makes_push (t : SymbolTable) : Answered.Makes ⟨.push, .ok .done⟩ t t.pushScope where
  defined k name x := by
    have hnot : ¬ DefinedIn [⟨.push, .ok .done⟩] name x k := not_definedIn_of_issued rfl
    cases k <;> simp [hnot, Answered.inside?]
  bound k name s hs := by
    cases k with
    | zero => cases hs
    | succ k => exact .inr ⟨rfl, k, hs⟩
  depth := rfl
  fresh := Nat.le_refl _
  issued := nofun

theorem makes_pop (h : t.popScope = .ok t') : Answered.Makes ⟨.pop, .ok .done⟩ t t' := by
  obtain ⟨hlength, hfresh, hsymbol⟩ := popScope_ok h
  constructor
  case defined =>
    intro k name x
    have hnot : ¬ DefinedIn [⟨.pop, .ok .done⟩] name x k := not_definedIn_of_issued rfl
    rw [hsymbol]
    simp only [hnot, or_false, Answered.inside?]
    constructor
    · exact fun hx => ⟨k + 1, hx, rfl⟩
    · rintro ⟨m, hm, hinside⟩
      split at hinside
      · cases hinside
      · cases hinside
        rwa [Nat.sub_add_cancel (by omega)]
  case bound =>
    intro k name s hs
    rw [hsymbol] at hs
    exact .inr ⟨rfl, k + 1, hs⟩
  case depth =>
    rw [hlength]
    rfl
  case fresh => exact Nat.le_of_eq hfresh.symm
  case issued => exact nofun

/-- A symbol in a table has got its identity at some time. -/
theorem Recorded.issued_of_symbolAt? (h : Recorded history t) {k : Nat} (hs : t.symbolAt? k name = some s) :
    s.id ∈ issued history :=
  ((h.defined k name s.id).1 (congrArg _ hs)).mem_issued

theorem Recorded.makes_define {binding : Binding} (hrecorded : Recorded history t)
    (h : t.define name binding = .ok (x, t')) : Answered.Makes ⟨.define name binding, .ok (.id x)⟩ t t' := by
  have hnew := define_new h
  obtain ⟨rfl, rfl⟩ := define_ok h
  -- What was there before is not the new symbol.
  have hother : ∀ {k other s}, t.symbolAt? k other = some s →
      Answered.binds? s.id ⟨.define name binding, .ok (.id ⟨t.fresh⟩)⟩ = none := by
    intro k other s hs
    refine if_neg fun hid => ?_
    have hlt := hrecorded.fresh _ (hrecorded.issued_of_symbolAt? hs)
    rw [← hid] at hlt
    exact Nat.lt_irrefl _ hlt
  constructor
  case defined =>
    intro k other x
    rw [definedIn_singleton]
    simp only [Answered.inside?, Option.some.injEq, exists_eq_right]
    cases k with
    | zero =>
      rw [symbolAt?_define_zero]
      by_cases hname : other = name
      · subst hname
        simp [hnew, eq_comm]
      · simp [hname, Ne.symm hname]
    | succ k => simp [symbolAt?, scopes]
  case bound =>
    intro k other s hs
    cases k with
    | zero =>
      rw [symbolAt?_define_zero] at hs
      split at hs
      · cases hs
        exact .inl (if_pos rfl)
      · exact .inr ⟨hother hs, 0, hs⟩
    | succ k => exact .inr ⟨hother (k := k + 1) hs, k + 1, hs⟩
  case depth => rfl
  case fresh => exact Nat.le_succ _
  case issued =>
    rintro x hx
    cases hx
    exact ⟨rfl, rfl⟩

theorem Recorded.makes_redefine {binding : Binding} (hrecorded : Recorded history t)
    (h : t.redefine name binding = .ok (x, t')) :
    Answered.Makes ⟨.redefine name binding, .ok (.id x)⟩ t t' := by
  obtain ⟨s, k, -, rfl, hk, hsymbol, hlength, hfresh⟩ := redefine_ok h
  constructor
  case defined =>
    intro j other y
    have hids : (t'.symbolAt? j other).map (·.id) = (t.symbolAt? j other).map (·.id) := by
      rw [hsymbol]
      split
      · next hsame =>
        obtain ⟨rfl, rfl⟩ := hsame
        rw [hk]
        rfl
      · rfl
    have hnot : ¬ DefinedIn [⟨.redefine name binding, .ok (.id s.id)⟩] other y j :=
      not_definedIn_of_issued rfl
    simp [hids, hnot, Answered.inside?]
  case bound =>
    intro j other s' hs'
    rw [hsymbol] at hs'
    split at hs'
    · cases hs'
      exact .inl (if_pos rfl)
    · -- The symbol that has been redefined stands elsewhere, so this one has another identity.
      next hdiffers =>
      refine .inr ⟨if_neg fun hid => hdiffers ?_, j, hs'⟩
      have hdefined := (hrecorded.defined j other s'.id).1 (congrArg _ hs')
      have hdefined' := (hrecorded.defined k name s.id).1 (congrArg _ hk)
      rw [hid] at hdefined'
      exact (hdefined.unique hrecorded.once hdefined').symm
  case depth => exact congrArg some hlength.symm
  case fresh => exact Nat.le_of_eq hfresh.symm
  case issued => exact nofun

theorem quiet_error (o : Operation) (e : LoweringError) : Answered.Quiet ⟨o, .error e⟩ where
  inside _ := by cases o <;> rfl
  issued := by cases o <;> rfl
  binds _ := by cases o <;> rfl

/-- Every operation makes the next table of the one before. -/
theorem Recorded.makes (h : Recorded history t) (o : Operation) :
    Answered.Makes ⟨o, o.outcome t⟩ t (o.after t) := by
  unfold Operation.outcome Operation.after Operation.perform
  cases o with
  | push => exact makes_push t
  | pop =>
    dsimp only
    cases hpop : t.popScope with
    | error e => exact (quiet_error _ e).makes t
    | ok after => exact makes_pop hpop
  | define name binding =>
    dsimp only
    cases hdefine : t.define name binding with
    | error e => exact (quiet_error _ e).makes t
    | ok result => exact h.makes_define hdefine
  | redefine name binding =>
    dsimp only
    cases hredefine : t.redefine name binding with
    | error e => exact (quiet_error _ e).makes t
    | ok result => exact h.makes_redefine hredefine
  | lookup name => exact Answered.Quiet.makes ⟨fun _ => rfl, rfl, fun _ => rfl⟩ t
  | resolve name =>
    dsimp only
    cases t.resolve name <;> exact Answered.Quiet.makes ⟨fun _ => rfl, rfl, fun _ => rfl⟩ t
  | findVariable name =>
    dsimp only
    cases t.findVariable name <;> exact Answered.Quiet.makes ⟨fun _ => rfl, rfl, fun _ => rfl⟩ t
  | findFunction name =>
    dsimp only
    cases t.findFunction name <;> exact Answered.Quiet.makes ⟨fun _ => rfl, rfl, fun _ => rfl⟩ t

/-- What is answered follows from the history before. -/
theorem Recorded.follows (h : Recorded history t) (o : Operation) :
    Answered.Follows history ⟨o, o.outcome t⟩ := by
  unfold Operation.outcome Operation.perform
  cases o with
  | push => rfl
  | pop =>
    refine ⟨t.enclosing.length, h.depth, ?_⟩
    obtain ⟨innermost, enclosing, fresh⟩ := t
    cases enclosing <;> rfl
  | define name binding =>
    dsimp only
    cases hdefine : t.define name binding with
    | ok result =>
      have hnew := define_new hdefine
      refine .inr ⟨fun x hx => ?_, result.1, fun hx => ?_, rfl⟩
      · have hsome := (h.defined 0 name x).2 hx
        rw [hnew] at hsome
        cases hsome
      · have hlt := h.fresh _ hx
        rw [(define_ok hdefine).1] at hlt
        exact Nat.lt_irrefl _ hlt
    | error e =>
      unfold SymbolTable.define at hdefine
      split at hdefine
      · next s hlookup =>
        cases hdefine
        exact .inl ⟨⟨s.id, (h.defined 0 name s.id).1 (congrArg _ hlookup)⟩, rfl⟩
      · cases hdefine
  | redefine name binding =>
    refine ⟨t.lookup? name, h.finds name, ?_⟩
    dsimp only
    unfold SymbolTable.redefine
    cases t.lookup? name with
    | none => rfl
    | some s => cases rebindFirst name binding t.scopes <;> rfl
  | lookup name => exact ⟨t.lookup? name, h.finds name, rfl⟩
  | resolve name =>
    refine ⟨t.lookup? name, h.finds name, ?_⟩
    dsimp only
    unfold SymbolTable.resolve
    cases t.lookup? name <;> rfl
  | findVariable name =>
    refine ⟨t.lookup? name, h.finds name, ?_⟩
    dsimp only
    unfold SymbolTable.findVariable
    rcases t.lookup? name with _ | ⟨x, _ | _⟩ <;> rfl
  | findFunction name =>
    refine ⟨t.lookup? name, h.finds name, ?_⟩
    dsimp only
    unfold SymbolTable.findFunction
    rcases t.lookup? name with _ | ⟨x, _ | _⟩ <;> rfl

/-! ## All histories -/

/-- A table stays what the history says, and all answers follow from what was before them. -/
theorem Recorded.after_run (h : Recorded history t) (ops : List Operation) :
    Recorded (history ++ (run t ops).1) (run t ops).2 ∧
      ∀ before a later, (run t ops).1 = before ++ a :: later → a.Follows (history ++ before) := by
  induction ops generalizing history t with
  | nil =>
    refine ⟨by simpa [run] using h, fun before a later hsplit => ?_⟩
    cases (List.append_eq_nil_iff.1 hsplit.symm).2
  | cons o ops ih =>
    obtain ⟨hlast, hfollows⟩ := ih (h.then (h.makes o))
    refine ⟨by simpa [run] using hlast, fun before a later hsplit => ?_⟩
    cases before with
    | nil =>
      obtain ⟨rfl, -⟩ := List.cons.inj hsplit
      simpa using h.follows o
    | cons first before =>
      obtain ⟨rfl, hrest⟩ := List.cons.inj hsplit
      simpa using hfollows before a later hrest

/-! ## Balanced operations -/

/-- The scopes that are opened are closed again, and no others are closed. -/
inductive Balanced : List Operation → Prop
  | nil : Balanced []
  | plain {o rest} (hpush : o ≠ .push) (hpop : o ≠ .pop) (hrest : Balanced rest) : Balanced (o :: rest)
  | scope {inner rest} (hinner : Balanced inner) (hrest : Balanced rest) :
      Balanced (.push :: inner ++ .pop :: rest)

/-- A scope in which balanced operations have taken place can be closed. -/
theorem Recorded.closable (h : Recorded history t.pushScope) {inner : List Operation}
    (hinner : ∀ n, scopesInside? (run t.pushScope inner).1 n = some n) :
    ∃ after, (run t.pushScope inner).2.popScope = .ok after := by
  have hdepth := (h.after_run inner).1.depth
  rw [scopesInside?_append, h.depth, Option.bind_some, hinner] at hdepth
  generalize (run t.pushScope inner).2 = last at hdepth ⊢
  obtain ⟨innermost, enclosing, fresh⟩ := last
  cases enclosing with
  | nil => cases hdepth
  | cons scope rest => exact ⟨_, rfl⟩

/-- A scope that has been opened, and closed again. -/
theorem run_scope {inner rest : List Operation} (hpop : (run t.pushScope inner).2.popScope = .ok t') :
    run t (.push :: inner ++ .pop :: rest) =
      (⟨.push, .ok .done⟩ :: (run t.pushScope inner).1 ++ ⟨.pop, .ok .done⟩ :: (run t' rest).1,
        (run t' rest).2) := by
  have houtcome : Operation.outcome (run t.pushScope inner).2 .pop = .ok .done := by
    unfold Operation.outcome Operation.perform
    rw [hpop]
    rfl
  have hafter : Operation.after (run t.pushScope inner).2 .pop = t' := by
    unfold Operation.after Operation.perform
    rw [hpop]
    rfl
  show (_ :: (run t.pushScope (inner ++ .pop :: rest)).1, (run t.pushScope (inner ++ .pop :: rest)).2) = _
  rw [run_append]
  show (_ :: (_ ++ ⟨.pop, _⟩ :: (run (Operation.after _ .pop) rest).1),
    (run (Operation.after _ .pop) rest).2) = _
  rw [houtcome, hafter]
  rfl

/-- After balanced operations there are as many scopes as before. -/
theorem Recorded.balanced {ops : List Operation} (hops : Balanced ops) (h : Recorded history t) (n : Nat) :
    scopesInside? (run t ops).1 n = some n := by
  induction hops generalizing history t n with
  | nil => rfl
  | @plain o rest hpush hpop _ ih =>
    have hsame : Answered.inside? n ⟨o, o.outcome t⟩ = some n := by
      cases o <;> first | rfl | contradiction
    show (Answered.inside? n ⟨o, o.outcome t⟩).bind _ = _
    rw [hsame]
    exact ih (h.then (h.makes o)) n
  | @scope inner rest _ _ ihinner ihrest =>
    -- Inside the new scope there is one scope more, so the operations there leave one to be closed.
    have hpushed := h.then (makes_push t)
    obtain ⟨after, hpop⟩ := hpushed.closable (ihinner hpushed)
    have hpopped := ((hpushed.after_run inner).1).then (makes_pop hpop)
    rw [run_scope hpop, scopesInside?_append]
    show ((scopesInside? _ (n + 1)).bind _) = _
    rw [ihinner hpushed (n + 1)]
    exact ihrest hpopped n

/-- Where as many scopes are open as at first, names are defined in the innermost one only. -/
theorem DefinedIn.eq_zero (h : DefinedIn history name x n) (hhistory : scopesInside? history 0 = some 0) :
    n = 0 := by
  obtain ⟨before, binding, later, rfl, hn⟩ := h
  rw [scopesInside?_append] at hhistory
  obtain ⟨k, -, hrest⟩ := Option.bind_eq_some_iff.1 hhistory
  -- From the outermost scope to the innermost there are those outside the definition and those inside it.
  have hshifted : scopesInside? later (0 + k) = some (n + k) := scopesInside?_shift k hn
  rw [Nat.zero_add] at hshifted
  have hsum := Option.some_inj.1 (hshifted.symm.trans hrest)
  omega

/-- A name that has been defined in a scope is not defined any more when the scope has been closed. -/
theorem not_definedIn_scope (hhistory : scopesInside? history 0 = some 0) :
    ¬ DefinedIn (⟨.push, .ok .done⟩ :: history ++ [⟨.pop, .ok .done⟩]) name x n := by
  intro h
  rcases definedIn_append.1 h with ⟨m, hm, hpop⟩ | hpop
  · change DefinedIn ([⟨.push, .ok .done⟩] ++ history) name x m at hm
    rcases definedIn_append.1 hm with ⟨_, hpush, -⟩ | hm
    · exact not_definedIn_of_issued rfl hpush
    · obtain rfl := hm.eq_zero hhistory
      cases hpop
  · exact not_definedIn_of_issued rfl hpop

/-- A symbol that was there before gets another meaning by a redefinition only. -/
theorem redefined?_eq (hx : x ∉ issued history) : redefined? history x = binding? history x := by
  unfold redefined? binding?
  refine congrArg List.getLast? (List.filterMap_congr fun a ha => ?_)
  obtain ⟨o, outcome⟩ := a
  cases o with
  | define name binding =>
    rcases outcome with e | (_ | y | _ | _) <;> try rfl
    have hne : y ≠ x := fun h => hx (List.mem_filterMap.2 ⟨_, ha, congrArg some h⟩)
    exact (if_neg hne).symm
  | redefine name binding => rcases outcome with e | (_ | y | _ | _) <;> rfl
  | _ => rfl

theorem DefinedIn.bound (h : DefinedIn history name x n) : ∃ binding, binding? history x = some binding := by
  obtain ⟨before, binding, later, rfl, -⟩ := h
  have hbinds : Answered.binds? x ⟨.define name binding, .ok (.id x)⟩ = some binding := if_pos rfl
  rw [List.append_cons, binding?_append, binding?_append, binding?_singleton, hbinds]
  cases binding? later x with
  | none => exact ⟨binding, rfl⟩
  | some last => exact ⟨last, rfl⟩

/-- What names stand for behind operations that leave all scopes open and define nothing there. -/
theorem visible_append (hscopes : ∀ n, scopesInside? later n = some n)
    (hnone : ∀ name x n, ¬ DefinedIn later name x n) (honce : (issued (history ++ later)).Nodup) :
    Visible (history ++ later) name s ↔ ∃ s₀, Visible history name s₀ ∧
      (⟨s₀.id, (redefined? later s₀.id).getD s₀.binding⟩ : Symbol) = s := by
  have hdefined : ∀ {x n}, DefinedIn (history ++ later) name x n ↔ DefinedIn history name x n := by
    intro x n
    simp [definedIn_append, hscopes, hnone]
  have hbinding : ∀ {x n binding}, DefinedIn history name x n → binding? history x = some binding →
      binding? (history ++ later) x = some ((redefined? later x).getD binding) := by
    intro x n binding hx hbound
    rw [issued_append, List.nodup_append] at honce
    rw [binding?_append, redefined?_eq fun hlater => honce.2.2 x hx.mem_issued x hlater rfl, hbound]
    cases binding? later x <;> rfl
  unfold Visible
  simp only [hdefined]
  constructor
  · rintro ⟨n, hn, hinnermost, hs⟩
    obtain ⟨binding, hbound⟩ := hn.bound
    rw [hbinding hn hbound] at hs
    refine ⟨⟨s.id, binding⟩, ⟨n, hn, hinnermost, hbound⟩, ?_⟩
    rw [Option.some_inj.1 hs]
  · rintro ⟨s₀, ⟨n, hn, hinnermost, hbound⟩, rfl⟩
    exact ⟨n, hn, hinnermost, hbinding hn hbound⟩

/-- Behind a scope names stand for the same symbols as before it, and these for the bindings that have been
given to them inside. -/
theorem Recorded.restored {inner : List Operation} (h : Recorded history t) (hinner : Balanced inner) :
    (run t (.push :: inner ++ [.pop])).1.getLast? = some ⟨.pop, .ok .done⟩ ∧
      ∀ name, (run t (.push :: inner ++ [.pop])).2.lookup? name =
        (t.lookup? name).map fun s =>
          ⟨s.id, (redefined? (run t (.push :: inner ++ [.pop])).1 s.id).getD s.binding⟩ := by
  have hpushed := h.then (makes_push t)
  have hbalanced := hpushed.balanced hinner
  obtain ⟨after, hpop⟩ := hpushed.closable hbalanced
  have hrun : run t (.push :: inner ++ [.pop]) = _ := run_scope hpop
  have hhistory := congrArg Prod.fst hrun
  have hrecorded := (h.after_run (.push :: inner ++ [.pop])).1
  constructor
  · rw [hhistory]
    exact List.getLast?_concat
  · intro name
    refine Option.ext fun s => ?_
    rw [Option.map_eq_some_iff, hrecorded.finds name s, visible_append (h.balanced (hinner.scope .nil))
      (fun name x n => hhistory ▸ not_definedIn_scope (hbalanced 0)) hrecorded.once]
    simp only [h.finds name _]

/-- A table behaves as a stack of scopes, whatever operations have been made on it. Every answer follows
from the history before; so does what a name stands for at the end. All identities that have been given
differ, also those of names whose scopes are gone. An operation that fails has changed nothing. After a scope
that has been opened and, behind balanced operations, closed again, every name stands for the same symbol
as before, and that has another binding only if it has been given one by a redefinition inside. -/
theorem behaves_as_scopes (first : Nat) (ops : List Operation) {history : List Answered} {t : SymbolTable}
    (hrun : run { empty with fresh := first } ops = (history, t)) :
    (∀ before a later, history = before ++ a :: later → a.Follows before) ∧
    (∀ name s, t.lookup? name = some s ↔ Visible history name s) ∧
    (issued history).Nodup ∧
    (∀ (o : Operation) e, o.outcome t = .error e → o.inPlace t = (.error e, t)) ∧
    ∀ inner, Balanced inner → ∀ inside after, run t (.push :: inner ++ [.pop]) = (inside, after) →
      inside.getLast? = some ⟨.pop, .ok .done⟩ ∧
      ∀ name, after.lookup? name =
        (t.lookup? name).map fun s => ⟨s.id, (redefined? inside s.id).getD s.binding⟩ := by
  obtain ⟨hrecorded, hfollows⟩ := (Recorded.start first).after_run ops
  rw [hrun] at hrecorded hfollows
  refine ⟨hfollows, hrecorded.finds, hrecorded.once, fun o e he => ?_,
    fun inner hinner inside after hinside => ?_⟩
  · rw [o.inPlace_eq, he, o.after_of_error he]
  · have hrestored := Recorded.restored hrecorded hinner
    rwa [hinside] at hrestored

/-- Inside a scope `x` is defined again, in two scopes, and the function `f` gets another fault flag. Behind
the scope `x` is the variable it was, and `f` the same function with the new flag. -/
theorem behaves_as_scopes_shadowed :
    ∃ inner history t inside after, Balanced inner ∧
      run { empty with fresh := 7 } [.define "x" .var, .define "f" (.function 1 false)] = (history, t) ∧
      run t (.push :: inner ++ [.pop]) = (inside, after) ∧
      issued (history ++ inside) = [⟨7⟩, ⟨8⟩, ⟨9⟩, ⟨10⟩] ∧
      after.lookup? "x" = some ⟨⟨7⟩, .var⟩ ∧ after.lookup? "f" = some ⟨⟨8⟩, .function 1 true⟩ := by
  let inner : List Operation := [.define "x" .var, .redefine "f" (.function 1 true),
    .push, .define "x" .var, .lookup "x", .pop]
  have hscope : Balanced [.push, .define "x" .var, .lookup "x", .pop] :=
    .scope (.plain nofun nofun (.plain nofun nofun .nil) : Balanced [.define "x" .var, .lookup "x"]) .nil
  have hinner : Balanced inner := .plain nofun nofun (.plain nofun nofun hscope)
  obtain ⟨-, -, -, -, hrestored⟩ := behaves_as_scopes 7
    [.define "x" .var, .define "f" (.function 1 false)] rfl
  obtain ⟨-, hnames⟩ := hrestored inner hinner _ _ rfl
  exact ⟨inner, _, _, _, _, hinner, rfl, rfl, rfl, hnames "x", hnames "f"⟩

end Abacus.Lowering.SymbolTable
