import Abacus.Proofs.Naming.Emission
import Abacus.Proofs.Pairing.Bodies

/-!
# Functions that are lowered at different places

The same definition, at different places of a text, is lowered to the same function where the functions
that it calls stand for the same. Whatever else is known does not matter, and neither does it matter
which identities the symbols have. So it does not matter whether definitions are in one text or in
several.

* `meaning?` — what a name stands for where some functions are known;
* `Tabulates.paired` — tables with the names of known functions, from the symbols on that are new;
* `lowerFunction_agree`, `lowerStatements_agree` — a definition and the top-level statements;
* `lowerItems_agree`, `lowerUnit_unplaced` — items, one after the other, and units.
-/

namespace Abacus.Lowering

open Abacus.Flow (Function Builder)

variable {π : Pairing} {options : Options} {known known' : List Export}
  {symbols symbols' : SymbolTable} {name : String} {called : String → Prop}

/-! ## Tables -/

/-- What a name stands for where some functions are known. -/
def meaning? (known : List Export) (name : String) : Option Binding :=
  (known.find? (·.name = name)).map Export.binding

theorem SymbolTable.Tabulates.lookup?_eq_meaning (h : symbols.Tabulates known) (name : String) :
    (symbols.lookup? name).map Symbol.binding = meaning? known name := by
  unfold meaning?
  cases hfind : known.find? (·.name = name) with
  | some e =>
    obtain rfl : e.name = name := by simpa using List.find?_some hfind
    obtain ⟨s, hs, hbinding⟩ := h.lookup_of_export (List.mem_of_find?_eq_some hfind)
    rw [hs, Option.map_some, Option.map_some, hbinding]
  | none =>
    cases hlookup : symbols.lookup? name with
    | none => rfl
    | some s =>
      obtain ⟨e, he, hname, -⟩ := h.export_of_lookup hlookup
      exact absurd hname (by simpa using List.find?_eq_none.1 hfind e he)

/-- Of known functions there is one scope only. -/
theorem SymbolTable.Tabulates.innermost_lookup (h : symbols.Tabulates known) (name : String) :
    symbols.innermost.lookup name = symbols.lookup? name := by
  rw [← h.entries_eq, ← SymbolTable.lookup?_eq]

theorem SymbolTable.Tabulates.lookup_none_iff (h : symbols.Tabulates known)
    (h' : symbols'.Tabulates known')
    (hnew : meaning? known name = none ↔ meaning? known' name = none) :
    symbols.innermost.lookup name = none ↔ symbols'.innermost.lookup name = none := by
  rwa [← h.lookup?_eq_meaning, ← h'.lookup?_eq_meaning, Option.map_eq_none_iff,
    Option.map_eq_none_iff, ← h.innermost_lookup, ← h'.innermost_lookup] at hnew

theorem SymbolTable.Tabulates.ofFunctions (h : symbols.Tabulates known) :
    Scope.OfFunctions symbols.innermost := by
  intro name s hs hvar
  rw [h.innermost_lookup] at hs
  obtain ⟨e, -, -, hbinding⟩ := h.export_of_lookup hs
  rw [hbinding] at hvar
  cases hvar

/-- Tables with the names of known functions are paired from the symbols on that are new for them, if
the names that are called stand for the same. -/
theorem SymbolTable.Tabulates.paired (h : symbols.Tabulates known) (h' : symbols'.Tabulates known')
    (hcalled : ∀ name, called name → meaning? known name = meaning? known' name) :
    symbols.PairedOutermost (.fresh symbols.fresh symbols'.fresh called) symbols' where
  innermost := by
    refine ⟨fun name hname => ?_, h.ofFunctions, h'.ofFunctions⟩
    have hmeaning := hcalled name hname
    rw [← h.lookup?_eq_meaning, ← h'.lookup?_eq_meaning, ← h.innermost_lookup,
      ← h'.innermost_lookup] at hmeaning
    cases hs : symbols.innermost.lookup name with
    | none =>
      rw [hs, Option.map_none, eq_comm, Option.map_eq_none_iff] at hmeaning
      rw [hmeaning]
      exact .none
    | some s =>
      rw [hs, Option.map_some, eq_comm, Option.map_eq_some_iff] at hmeaning
      obtain ⟨s', hs', hbinding⟩ := hmeaning
      rw [hs']
      -- Known functions are no variables, so their identities need no partners.
      exact .some ⟨hbinding.symm, fun hvar => absurd hvar (h.ofFunctions name s hs)⟩
  enclosing := ⟨h.single, h'.single⟩
  fresh i := ⟨i, rfl, rfl⟩

/-- A further function, whose name is new for both tables or for none. -/
theorem SymbolTable.PairedOutermost.define (h : symbols.PairedOutermost π symbols')
    (hnew : symbols.innermost.lookup name = none ↔ symbols'.innermost.lookup name = none)
    (arity : Nat) (mayFault : Bool) : Agree (fun r r' => r.2.PairedOutermost π r'.2)
      (symbols.define name (.function arity mayFault))
      (symbols'.define name (.function arity mayFault)) := by
  have hfunctions : ∀ {scope : Scope} {x : SymbolId}, scope.OfFunctions →
      Scope.OfFunctions ((name, ⟨x, .function arity mayFault⟩) :: scope) := by
    intro scope x hscope other s hs hvar
    rw [List.lookup_cons] at hs
    split at hs
    · cases hs
      cases hvar
    · exact hscope other s hs hvar
  unfold SymbolTable.define
  cases hs : symbols.innermost.lookup name with
  | some s =>
    cases hs' : symbols'.innermost.lookup name with
    | none => simp [hnew.2 hs'] at hs
    | some s' => exact agree_same
  | none =>
    rw [hnew.1 hs]
    refine .ok ⟨⟨fun other hother => ?_, hfunctions h.innermost.functions.1,
      hfunctions h.innermost.functions.2⟩, h.enclosing, fun i => ?_⟩
    · dsimp only
      rw [List.lookup_cons, List.lookup_cons]
      cases other == name with
      | true => exact .some ⟨rfl, nofun⟩
      | false => exact h.innermost.called other hother
    · dsimp only
      rw [Nat.add_assoc, Nat.add_assoc]
      exact h.fresh (1 + i)

/-! ## Functions -/

theorem Agree.located {α β : Type} {R : α → β → Prop} {x : Except LoweringError α}
    {y : Except LoweringError β} (h : Agree R x y) (span span' : Span) :
    Agree R (locateError span x) (locateError span' y) := by
  cases h with
  | ok h => exact .ok h
  | error h =>
    refine .error ?_
    rwa [LoweringError.cause_locate, LoweringError.cause_locate]

/-- A name that both tables have, or none, can get another meaning in both or in none. -/
theorem redefine_agree (h : (symbols.lookup? name).isSome = (symbols'.lookup? name).isSome)
    (binding : Binding) :
    Agree (fun _ _ => True) (symbols.redefine name binding) (symbols'.redefine name binding) := by
  unfold SymbolTable.redefine
  cases hs : symbols.lookup? name with
  | none =>
    cases hs' : symbols'.lookup? name with
    | none => exact agree_same
    | some => simp [hs, hs'] at h
  | some =>
    cases hs' : symbols'.lookup? name with
    | none => simp [hs, hs'] at h
    | some => dsimp only; split <;> split <;> exact .ok trivial

/-- The states at the start of a function are the same, and its name is known in both. -/
structure State.PairedStart (π : Pairing) (name : String) (s s' : State) : Prop where
  outermost : s.PairedOutermost π s'
  known : (s.symbols.lookup? name).isSome = (s'.symbols.lookup? name).isSome

theorem openFunction_agree (h : symbols.PairedOutermost π symbols')
    (hnew : symbols.innermost.lookup name = none ↔ symbols'.innermost.lookup name = none)
    (arity : Nat) : Agree (State.PairedStart π name) (openFunction symbols name arity)
      (openFunction symbols' name arity) := by
  refine (h.define hnew arity false).traced.bind ?_
  rintro ⟨x, t⟩ ⟨x', t'⟩ ⟨ht, hdefine, hdefine'⟩
  have hdraft : Draft.Paired π ⟨Builder.start name (List.replicate arity .int) .int, .empty⟩
      ⟨Builder.start name (List.replicate arity .int) .int, .empty⟩ :=
    ⟨rfl, Variables.paired_empty π⟩
  refine (Lower.builds_onDraft (Drafting.agrees_sealBlock Function.entry) ⟨t, _, false⟩
    ⟨t', _, false⟩ hdraft).bind ?_
  rintro ⟨⟨⟩, _⟩ ⟨⟨⟩, _⟩ ⟨-, d, d', hd, rfl, rfl⟩
  refine .ok ⟨⟨ht, hd, rfl⟩, ?_⟩
  rw [SymbolTable.lookup?_define hdefine, SymbolTable.lookup?_define hdefine']
  rfl

theorem Lower.agrees_parameters (span span' : Span) (names : List String) (i : Nat) :
    Agrees π Eq (parameters span names i) (parameters span' names i) := by
  induction names generalizing i with
  | nil => exact agrees_pure rfl
  | cons name names ih =>
    refine ((agrees_define name .var).located span span').bind fun x x' hx => ?_
    refine (agrees_onDraft (Drafting.agrees_declare hx .int)).then fun _ => ?_
    exact (agrees_onDraft (Drafting.agrees_write hx _ _)).then fun _ => ih (i + 1)

theorem Drafting.agrees_endBody (result? : Option Flow.Value) :
    Agrees π Eq (endBody result?) (endBody result?) := by
  refine agrees_get fun d d' hd => ?_
  rw [hd.builder]
  split
  · exact agrees_pure rfl
  · cases result? with
    | some v => exact agrees_terminate _
    | none => exact (agrees_emit _ _).then fun v => agrees_terminate _

/-- Paired drafts give the same function. -/
theorem Draft.Paired.finish {d d' : Draft} (h : d.Paired π d') (verify : Bool) :
    finishDraft verify d = finishDraft verify d' := by
  unfold finishDraft
  rw [h.known.finish, h.builder]

/-- The states at the end of a body: what has been built is the same, and the name of the function is
known in both. -/
structure State.PairedEnd (π : Pairing) (name : String) (s s' : State) : Prop where
  draft : s.draft.Paired π s'.draft
  mayFault : s.mayFault = s'.mayFault
  known : (s.symbols.lookup? name).isSome = (s'.symbols.lookup? name).isSome

/-- A body in a scope of its own leads from the start of a function to its end. -/
theorem State.PairedStart.body {α β : Type} {R : α → β → Prop} {work : Lower α} {work' : Lower β}
    {s s' : State} (hs : s.PairedStart π name s') (h : Lower.Agrees π R work work') :
    Agree (fun r r' => R r.1 r'.1 ∧ r.2.PairedEnd π name r'.2) (Lower.inScope work s)
      (Lower.inScope work' s') := by
  refine (Lower.inScope_agree h hs.outermost.symbols.pushScope hs.outermost.draft
    hs.outermost.mayFault).imp ?_
  rintro ⟨a, t⟩ ⟨b, t'⟩ ⟨hab, hdraft, hmayFault, hscopes, hscopes', -⟩
  refine ⟨hab, hdraft, hmayFault, ?_⟩
  have hknown := hs.known
  unfold SymbolTable.lookup? at hknown ⊢
  rw [hscopes, hscopes', hknown]

theorem closeFunction_agree {s s' : State} (h : s.PairedEnd π name s') (arity : Nat)
    (result? : Option Flow.Value) :
    Agree (fun r r' => r.1 = r'.1) (closeFunction options name arity result? s)
      (closeFunction options name arity result? s') := by
  refine (Lower.builds_onDraft (Drafting.agrees_endBody result?) s s' h.draft).bind ?_
  rintro ⟨⟨⟩, _⟩ ⟨⟨⟩, _⟩ ⟨-, d, d', hd, rfl, rfl⟩
  dsimp only
  rw [hd.finish, h.mayFault]
  cases finishDraft options.verify d' with
  | error e => exact agree_same
  | ok f =>
    show Agree _ (if s'.mayFault then _ else _) (if s'.mayFault then _ else _)
    split
    · exact (redefine_agree h.known _).bind fun _ _ _ => .ok rfl
    · exact .ok rfl

/-- The functions that are called on a walk through names. -/
def NameEvent.callee? : NameEvent → Option String
  | call _ name _ => some name
  | use .. | define .. | enter | leave => none

/-- The functions that a body calls. -/
def calledNames (body : Tree) : List String := (NameEvent.ofBody body).filterMap NameEvent.callee?

theorem callsPaired_of_calledNames {body : Tree} (h : ∀ name ∈ calledNames body, π.called name) :
    Lower.CallsPaired π (NameEvent.ofBody body) :=
  fun _ name _ hmem => h name (List.mem_filterMap.2 ⟨_, hmem, rfl⟩)

/-- A definition and the same definition without places, where the functions that it calls stand for
the same. -/
theorem lowerFunction_unplaced (options : Options) (h : symbols.Tabulates known)
    (h' : symbols'.Tabulates known') (span span' : Span) (name : String) (names : List String) (body : Tree)
    (hnew : meaning? known name = none ↔ meaning? known' name = none)
    (hcalls : ∀ callee ∈ calledNames body, meaning? known callee = meaning? known' callee) :
    Agree (fun r r' => r.1 = r'.1 ∧ r.2.1 = r'.2.1)
      (lowerFunction options symbols span name names body)
      (lowerFunction options symbols' span' name names body.unplaced) := by
  have hpaired := h.paired h' hcalls
  have hfree := h.lookup_none_iff h' hnew
  refine ((openFunction_agree hpaired hfree names.length).located span span').bind
    fun s s' hs => ?_
  have hitems : Lower.Agrees (.fresh symbols.fresh symbols'.fresh (· ∈ calledNames body)) Eq
      (Lower.items options.fault body) (Lower.items options.fault body.unplaced) :=
    Lower.agrees_items body (callsPaired_of_calledNames fun _ hname => hname)
  refine (hs.body ((Lower.agrees_parameters span span' names 0).then fun _ => hitems)).bind ?_
  rintro ⟨⟨⟩, t⟩ ⟨⟨⟩, t'⟩ ⟨-, ht⟩
  refine ((closeFunction_agree ht names.length none).located span span').bind ?_
  rintro ⟨f, _⟩ ⟨f', _⟩ rfl
  exact .ok ⟨rfl, by rw [ht.mayFault]⟩

/-- A definition is lowered to the same function wherever it stands, and whatever else is known, if the
functions that it calls stand for the same. -/
theorem lowerFunction_agree (options : Options) (h : symbols.Tabulates known)
    (h' : symbols'.Tabulates known') (span span' : Span) (name : String) (names : List String)
    {body body' : Tree} (hbody : body.unplaced = body'.unplaced)
    (hnew : meaning? known name = none ↔ meaning? known' name = none)
    (hcalls : ∀ callee ∈ calledNames body, meaning? known callee = meaning? known' callee) :
    Agree (fun r r' => r.1 = r'.1 ∧ r.2.1 = r'.2.1)
      (lowerFunction options symbols span name names body)
      (lowerFunction options symbols' span' name names body') := by
  have hfirst := lowerFunction_unplaced options h h' span span' name names body hnew hcalls
  have hsecond := lowerFunction_unplaced options h' h' span' span' name names body' Iff.rfl
    fun _ _ => rfl
  rw [hbody] at hfirst
  refine (hfirst.common hsecond).imp ?_
  rintro a b ⟨c, hac, hbc⟩
  exact ⟨hac.1.trans hbc.1.symm, hac.2.trans hbc.2.symm⟩

/-- The value of top-level statements is converted alike. -/
theorem integerResult_agree {s s' : State} (h : s.PairedEnd π name s') (last? : Option Flow.Value) :
    Agree (fun r r' => r.1 = r'.1 ∧ r.2.PairedEnd π name r'.2) (integerResult last? s)
      (integerResult last? s') := by
  cases last? with
  | none => exact .ok ⟨rfl, h⟩
  | some v =>
    refine (Lower.builds_coerce v .int s s' h.draft).bind ?_
    rintro ⟨w, _⟩ ⟨_, _⟩ ⟨rfl, d, d', hd, rfl, rfl⟩
    exact .ok ⟨rfl, hd, h.mayFault, h.known⟩

/-- Top-level statements are lowered to the same function as without places. -/
theorem lowerStatements_unplaced (options : Options) (h : symbols.Tabulates known)
    (h' : symbols'.Tabulates known) (name : String) (items : List Tree) :
    Agree Eq (lowerStatements options symbols name items)
      (lowerStatements options symbols' name (items.map Tree.unplaced)) := by
  rw [lowerStatements_eq, lowerStatements_eq]
  have hpaired : symbols.PairedOutermost (.fresh symbols.fresh symbols'.fresh fun _ => True)
      symbols' := h.paired h' fun _ _ => rfl
  have hfree : symbols.innermost.lookup name = none ↔ symbols'.innermost.lookup name = none :=
    h.lookup_none_iff h' Iff.rfl
  refine ((openFunction_agree hpaired hfree 0).located _ _).bind fun s s' hs => ?_
  refine (hs.body (Lower.agrees_statementsValue items fun _ _ _ _ => trivial)).bind ?_
  rintro ⟨last?, t⟩ ⟨_, t'⟩ ⟨rfl, ht⟩
  refine (integerResult_agree ht last?).bind ?_
  rintro ⟨r, t⟩ ⟨_, t'⟩ ⟨rfl, ht⟩
  refine (closeFunction_agree ht 0 r).bind ?_
  rintro ⟨f, _⟩ ⟨_, _⟩ rfl
  exact .ok rfl

/-- Top-level statements are lowered to the same function wherever they stand. -/
theorem lowerStatements_agree (options : Options) (h : symbols.Tabulates known)
    (h' : symbols'.Tabulates known) (name : String) {items items' : List Tree}
    (hitems : items.map Tree.unplaced = items'.map Tree.unplaced) :
    Agree Eq (lowerStatements options symbols name items)
      (lowerStatements options symbols' name items') := by
  have hfirst := lowerStatements_unplaced options h h' name items
  have hsecond := lowerStatements_unplaced options h' h' name items'
  rw [hitems] at hfirst
  refine (hfirst.common hsecond).imp ?_
  rintro a b ⟨c, rfl, rfl⟩
  rfl

/-! ## Items, one after the other -/

/-- One run has started where `known` were known. Another one has gone on from `start` to the same
functions and exports, and now both know the same. -/
structure Progress.Alongside (start : Progress) (known : List Export) (p p' : Progress) :
    Prop where
  functions : p'.functions.toList = start.functions.toList ++ p.functions.toList
  exports : p'.exports.toList = start.exports.toList ++ p.exports.toList
  statements : p'.statements.toList.map Tree.unplaced =
    start.statements.toList.map Tree.unplaced ++ p.statements.toList.map Tree.unplaced
  table : p.symbols.Tabulates (known ++ p.exports.toList)
  table' : p'.symbols.Tabulates (known ++ p.exports.toList)

variable {start p p' : Progress}

theorem isDefinition_unplaced (t : Tree) :
    Meaning.isDefinition t.unplaced = Meaning.isDefinition t := by
  obtain ⟨span, shape⟩ := t
  rw [Tree.unplaced_node]
  cases shape <;> rfl

theorem exists_fnDef_of_isDefinition {t : Tree} (h : Meaning.isDefinition t = true) :
    ∃ span name names body, t = .node span (.fnDef name names body) := by
  obtain ⟨span, shape⟩ := t
  cases shape with
  | fnDef name names body => exact ⟨span, name, names, body, rfl⟩
  | _ => cases h

/-- A definition that says the same as another tree is one of the same function. -/
theorem exists_fnDef_of_unplaced {span : Span} {names : List String} {body t' : Tree}
    (h : (Tree.node span (.fnDef name names body)).unplaced = t'.unplaced) :
    ∃ span' body', t' = .node span' (.fnDef name names body') ∧ body.unplaced = body'.unplaced := by
  obtain ⟨span', shape'⟩ := t'
  rw [Tree.unplaced_node, Tree.unplaced_node] at h
  cases shape' with
  | fnDef name' names' body' =>
    simp only [Shape.map, Tree.node.injEq, Shape.fnDef.injEq, true_and] at h
    obtain ⟨rfl, rfl, hbody⟩ := h
    exact ⟨span', body', rfl, hbody⟩
  | _ => simp [Shape.map] at h

/-- An item leads to the same function in both runs, or is kept for later in both. -/
theorem lowerItem_agree (h : Progress.Alongside start known p p') {t t' : Tree}
    (ht : t.unplaced = t'.unplaced) :
    Agree (Progress.Alongside start known) (lowerItem options p t) (lowerItem options p' t') := by
  cases hdefinition : Meaning.isDefinition t with
  | true =>
    obtain ⟨span, name, names, body, rfl⟩ := exists_fnDef_of_isDefinition hdefinition
    obtain ⟨span', body', rfl, hbody⟩ := exists_fnDef_of_unplaced ht
    have hlower := lowerFunction_agree options h.table h.table' span span' name names hbody
      Iff.rfl fun _ _ => rfl
    refine hlower.traced.bind ?_
    rintro ⟨f, entry, symbols⟩ ⟨_, _, symbols'⟩ ⟨⟨rfl, rfl⟩, hrun, hrun'⟩
    obtain ⟨-, -, -, htable⟩ := lowerFunction_compiled h.table hrun
    obtain ⟨-, -, -, htable'⟩ := lowerFunction_compiled h.table' hrun'
    refine .ok ⟨?_, ?_, h.statements, ?_, ?_⟩
    · simp [h.functions]
    · simp [h.exports]
    · simpa using htable
    · simpa using htable'
  | false =>
    have hdefinition' : Meaning.isDefinition t' = false := by
      rwa [← isDefinition_unplaced, ← ht, isDefinition_unplaced]
    rw [(lowerItem_of_statement hdefinition p).1, (lowerItem_of_statement hdefinition' p').1]
    exact .ok ⟨h.functions, h.exports, by simp [h.statements, ht], h.table, h.table'⟩

/-- Items lead to the same functions in both runs, or the first that cannot be lowered is the same in
both. -/
theorem lowerItems_agree {items items' : List Tree}
    (hitems : items.map Tree.unplaced = items'.map Tree.unplaced) (h : Progress.Alongside start known p p') :
    Agree (Progress.Alongside start known) (items.foldlM (lowerItem options) p)
      (items'.foldlM (lowerItem options) p') := by
  induction items generalizing items' p p' with
  | nil =>
    obtain rfl : items' = [] := by simpa using hitems.symm
    exact .ok h
  | cons t rest ih =>
    obtain ⟨t', rest', rfl, ht, hrest⟩ := List.map_eq_cons_iff.1 hitems.symm
    rw [List.foldlM_cons, List.foldlM_cons]
    exact (lowerItem_agree h ht.symm).bind fun _ _ => ih hrest.symm

/-- Where a unit stands does not matter to what it is lowered to. -/
theorem lowerUnit_agree (options : Options) (exports : List Export) (unitName : String)
    {tree tree' : Tree} (hitems : tree.items.map Tree.unplaced = tree'.items.map Tree.unplaced) :
    Agree Eq (lowerUnit options exports unitName (some tree))
      (lowerUnit options exports unitName (some tree')) := by
  unfold lowerUnit
  cases himport : importExports exports with
  | error e => exact agree_same
  | ok symbols =>
    have htable := importExports_tabulates himport
    have hstart : Progress.Alongside ⟨symbols, #[], #[], #[]⟩ exports ⟨symbols, #[], #[], #[]⟩
        ⟨symbols, #[], #[], #[]⟩ :=
      ⟨rfl, rfl, rfl, by simpa using htable, by simpa using htable⟩
    refine Agree.bind (R := Progress.Alongside ⟨symbols, #[], #[], #[]⟩ exports)
      (lowerItems_agree hitems hstart) fun p p' hp => ?_
    have hfunctions : p'.functions.toList = p.functions.toList := hp.functions
    have hexports : p'.exports.toList = p.exports.toList := hp.exports
    have hstatements : p.statements.toList.map Tree.unplaced =
        p'.statements.toList.map Tree.unplaced := hp.statements.symm
    have hempty : p.statements.isEmpty = p'.statements.isEmpty := by
      have hlength := congrArg List.length hstatements
      simp only [List.length_map, Array.length_toList] at hlength
      simp [Array.isEmpty, hlength]
    rw [hempty]
    split
    · refine .ok ?_
      rw [hfunctions, hexports]
    · have hlower := lowerStatements_agree options hp.table hp.table' unitName hstatements
      refine hlower.bind fun f f' hf => .ok ?_
      rw [Array.toList_push, Array.toList_push, hfunctions, hexports, hf]

end Abacus.Lowering
