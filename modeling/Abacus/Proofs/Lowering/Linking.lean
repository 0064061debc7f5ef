import Abacus.Session
import Abacus.Proofs.Lowering.Finished
import Abacus.Proofs.Lowering.Units
import Abacus.Proofs.Meaning.Evaluator
import Mathlib.Data.List.Nodup

/-!
# Linked programs

A function of a linked program has been lowered where certain functions were known: those that
earlier units export and those before it in its unit. They are still there under their names, whatever
has been linked since.

* `SymbolTable.Tabulates` — a table has the names of some exports, and no others;
* `Compiled` — a function that has been lowered, and what was known then;
* `Lowers` — the definitions of a source text, one after the other;
* `Routine.Means` — what is evaluated for a function of the source text;
* `Linked` — a program and the exports of its units; `Linked.unit`, `Linked.session`.
-/

namespace Abacus.Lowering

open Abacus.Flow (Function)
open Abacus.Machine (Program)
open Plan

/-! ## Tables of exports -/

namespace SymbolTable

/-- The names of a table are those of some exports, the last one first. -/
structure Tabulates (t : SymbolTable) (exports : List Export) : Prop where
  single : t.enclosing = []
  global : t.Global
  names : t.entries.map (fun e => (e.1, e.2.binding)) =
    (exports.map fun e => (e.name, e.binding)).reverse
  distinct : (exports.map Export.name).Nodup

variable {t t₁ : SymbolTable} {exports : List Export} {name : String} {x : SymbolId}

theorem tabulates_empty : empty.Tabulates [] :=
  ⟨rfl, ⟨⟨by simp [entries, scopes, empty], by simp [entries, scopes, empty]⟩,
    by simp [entries, scopes, empty]⟩, rfl, .nil⟩

namespace Tabulates

theorem entries_eq (h : t.Tabulates exports) : t.entries = t.innermost := by
  unfold SymbolTable.entries SymbolTable.scopes
  rw [h.single]
  simp

/-- What a name stands for has been exported. -/
theorem export_of_lookup (h : t.Tabulates exports) {s : Symbol}
    (hs : t.lookup? name = some s) :
    ∃ e ∈ exports, e.name = name ∧ s.binding = e.binding := by
  have hmem := List.mem_map_of_mem (f := fun e => (e.1, e.2.binding)) (mem_entries_of_lookup? hs)
  rw [h.names, List.mem_reverse] at hmem
  obtain ⟨e, he, heq⟩ := List.mem_map.1 hmem
  obtain ⟨hname, hbinding⟩ := Prod.mk.inj heq
  exact ⟨e, he, hname, hbinding.symm⟩

/-- What has been exported has its name. -/
theorem lookup_of_export (h : t.Tabulates exports) {e : Export} (he : e ∈ exports) :
    ∃ s, t.lookup? e.name = some s ∧ s.binding = e.binding := by
  have hmem : (e.name, e.binding) ∈ t.entries.map fun e => (e.1, e.2.binding) := by
    rw [h.names, List.mem_reverse]
    exact List.mem_map_of_mem he
  obtain ⟨⟨other, s⟩, hs, heq⟩ := List.mem_map.1 hmem
  obtain ⟨rfl, hbinding⟩ := Prod.mk.inj heq
  cases hlookup : t.lookup? e.name with
  | none =>
    rw [lookup?_eq, List.lookup_eq_none_iff] at hlookup
    exact absurd (hlookup _ hs) (by simp)
  | some s' =>
    obtain ⟨e', he', hname, hbinding'⟩ := h.export_of_lookup hlookup
    obtain rfl : e' = e := List.inj_on_of_nodup_map h.distinct he' he hname
    exact ⟨s', rfl, hbinding'⟩

/-- A further function is defined. -/
theorem define (h : t.Tabulates exports) {e : Export}
    (hdefine : t.define e.name e.binding = .ok (x, t₁)) : t₁.Tabulates (exports ++ [e]) := by
  have hentries := entries_define hdefine
  have hnew : e.name ∉ exports.map Export.name := by
    intro hmem
    obtain ⟨e', he', hname⟩ := List.mem_map.1 hmem
    obtain ⟨s, hs, -⟩ := h.lookup_of_export he'
    rw [hname, lookup?_eq, h.entries_eq] at hs
    unfold SymbolTable.define at hdefine
    rw [hs] at hdefine
    cases hdefine
  refine ⟨?_, ⟨h.global.orderly.define hdefine, fun e' he' => ?_⟩, ?_, ?_⟩
  · rw [(define_ok hdefine).2]
    exact h.single
  · rw [hentries] at he'
    rcases List.mem_cons.1 he' with rfl | he'
    · simp [Export.binding]
    · exact h.global.functions e' he'
  · rw [hentries, List.map_cons, h.names]
    simp
  · rw [List.map_append, List.nodup_append]
    refine ⟨h.distinct, by simp, fun a ha b hb => ?_⟩
    obtain rfl : b = e.name := by simpa using hb
    exact fun hab => hnew (hab ▸ ha)

/-- The names are those of another table with the same scopes. -/
theorem of_scopes (h : t.Tabulates exports) (hscopes : t₁.scopes = t.scopes) (horderly : t₁.Orderly) :
    t₁.Tabulates exports := by
  have hentries : t₁.entries = t.entries := congrArg List.flatten hscopes
  refine ⟨(List.cons.inj hscopes).2.trans h.single, ⟨horderly, fun e he => ?_⟩, ?_, h.distinct⟩
  · exact h.global.functions e (hentries ▸ he)
  · rw [hentries, h.names]

/-- The fault flag of the function that was defined last is set. -/
theorem redefine {arity : Nat} {b b' : Bool} (h : t.Tabulates (exports ++ [⟨name, arity, b⟩]))
    (hredefine : t.redefine name (.function arity b') = .ok (x, t₁)) :
    t₁.Tabulates (exports ++ [⟨name, arity, b'⟩]) := by
  obtain ⟨s, hs, -⟩ := h.lookup_of_export (e := ⟨name, arity, b⟩) (by simp)
  have hrebound : t₁ = { t with innermost := rebind t.innermost name (.function arity b') } := by
    have hinnermost : (t.innermost.lookup name).isSome = true := by
      rw [← h.entries_eq, ← lookup?_eq, show t.lookup? name = some s from hs]
      rfl
    unfold SymbolTable.redefine at hredefine
    rw [show t.lookup? name = some s from hs] at hredefine
    simp only [rebindFirst, scopes, hinnermost, if_true] at hredefine
    cases hredefine
    rfl
  have hentries : t₁.entries = rebind t.entries name (.function arity b') := by
    have hsingle : t₁.entries = t₁.innermost := by
      unfold SymbolTable.entries SymbolTable.scopes
      rw [hrebound, h.single]
      simp
    rw [hsingle, h.entries_eq, hrebound]
  have hids : t₁.entries.map (·.2.id) = t.entries.map (·.2.id) := by
    rw [hentries, rebind, List.map_map]
    refine List.map_congr_left fun e _ => ?_
    simp only [Function.comp]
    split <;> rfl
  refine ⟨?_, ⟨⟨fun e he => ?_, ?_⟩, fun e he => ?_⟩, ?_, by simpa using h.distinct⟩
  · rw [hrebound]
    exact h.single
  · have hmem := List.mem_map_of_mem (f := (·.2.id)) he
    rw [hids] at hmem
    obtain ⟨e', he', hid⟩ := List.mem_map.1 hmem
    rw [← hid, hrebound]
    exact h.global.orderly.fresh e' he'
  · rw [hids]
    exact h.global.orderly.distinct
  · rw [hentries] at he
    obtain ⟨e', he', rfl⟩ := List.mem_map.1 he
    dsimp only
    split
    · simp
    · exact h.global.functions e' he'
  · -- The names before have other names.
    have hrebind : t₁.entries.map (fun e => (e.1, e.2.binding)) =
        (t.entries.map fun e => (e.1, e.2.binding)).map fun e =>
          if e.1 = name then (e.1, .function arity b') else e := by
      rw [hentries, rebind, List.map_map, List.map_map]
      refine List.map_congr_left fun e _ => ?_
      simp only [Function.comp]
      split <;> rfl
    rw [hrebind, h.names, List.map_reverse, List.map_append, List.map_append, List.map_append]
    have hdistinct := h.distinct
    rw [List.map_append, List.nodup_append] at hdistinct
    congr 2
    · rw [List.map_map]
      refine List.map_congr_left fun e he => ?_
      have hne : e.name ≠ name := fun heq =>
        hdistinct.2.2 _ (List.mem_map_of_mem he) name (by simp) heq
      simp [Function.comp, hne]
    · simp [Export.binding]

end Tabulates

end SymbolTable

/-! ## Functions of a unit -/

/-- A routine has been lowered to a function where the functions `known` and itself were known. -/
inductive Compiled (config : FaultConfig) (known : List Export) (routine : Routine) (b : Bool)
    (f : Function) : Prop
  | intro {opened closed ω} (table : opened.Tabulates (known ++ [⟨routine.name, routine.arity, false⟩]))
      (made : Made config opened routine b closed ω) (function : f = ω.builder.function)

/-- The signature of a function that has been lowered. -/
theorem Plan.Made.signature {config : FaultConfig} {symbols symbols' : SymbolTable}
    {routine : Routine} {b : Bool} {ω : Plan} (h : Made config symbols routine b symbols' ω) :
    ω.builder.function.name = routine.name ∧
      ω.builder.function.params = List.replicate routine.arity .int :=
  h.extends'.signature

theorem Compiled.name {config : FaultConfig} {known : List Export} {routine : Routine} {b : Bool}
    {f : Function} (h : Compiled config known routine b f) : f.name = routine.name := by
  obtain ⟨-, hmade, rfl⟩ := h
  exact hmade.signature.1

theorem Compiled.params {config : FaultConfig} {known : List Export} {routine : Routine} {b : Bool}
    {f : Function} (h : Compiled config known routine b f) : f.params.length = routine.arity := by
  obtain ⟨-, hmade, rfl⟩ := h
  rw [hmade.signature.2, List.length_replicate]

/-- The definitions among some items are lowered, each of them where those before it are known. -/
inductive Lowers (config : FaultConfig) :
    List Export → List Tree → List Function → List Export → Prop
  | nil {known} : Lowers config known [] [] []
  | function {known span name parameters body b f rest fs es} :
      Compiled config known (.definition name parameters body) b f →
      Lowers config (known ++ [⟨name, parameters.length, b⟩]) rest fs es →
      Lowers config known (.node span (.fnDef name parameters body) :: rest) (f :: fs)
        (⟨name, parameters.length, b⟩ :: es)
  | statement {known item rest fs es} : Meaning.isDefinition item = false →
      Lowers config known rest fs es → Lowers config known (item :: rest) fs es

section

variable {options : Options} {known exports : List Export} {symbols : SymbolTable}

/-- The fault flag stands with the name of the function. -/
theorem SymbolTable.Tabulates.flagged {symbols' : SymbolTable} {name : String} {arity : Nat} {b : Bool}
    (h : symbols.Tabulates (known ++ [⟨name, arity, false⟩]))
    (hflagged : Flagged name arity b symbols symbols') :
    symbols'.Tabulates (known ++ [⟨name, arity, b⟩]) := by
  unfold Flagged at hflagged
  cases b with
  | false =>
    rw [if_neg (by simp)] at hflagged
    exact hflagged ▸ h
  | true =>
    rw [if_pos rfl] at hflagged
    obtain ⟨id, hredefine⟩ := hflagged
    exact h.redefine hredefine

/-- A definition is lowered, and known from then on. -/
theorem lowerFunction_compiled {symbols' : SymbolTable} {span : Span} {name : String}
    {names : List String} {body : Tree} {f : Function} {entry : Export}
    (ht : symbols.Tabulates known)
    (h : lowerFunction options symbols span name names body = .ok (f, entry, symbols')) :
    ∃ b, Compiled options.fault known (.definition name names body) b f ∧
      entry = ⟨name, names.length, b⟩ ∧ symbols'.Tabulates (known ++ [entry]) := by
  obtain ⟨id, opened, b, closed, ω, hdefine, hmade, hf, rfl, hflagged⟩ := lowerFunction_made h
  have hopened := ht.define (e := ⟨name, names.length, false⟩) hdefine
  obtain ⟨hbody, hended⟩ := hmade
  obtain ⟨hscopes, horderly⟩ := hbody.closed hopened.global
  exact ⟨b, .intro hopened (.intro hbody hended) hf, rfl,
    (hopened.of_scopes hscopes horderly).flagged hflagged⟩

/-- The items of a unit, one after the other. -/
theorem lowerItems_lowers {items : List Tree} {progress progress' : Progress}
    (ht : progress.symbols.Tabulates known)
    (h : items.foldlM (lowerItem options) progress = .ok progress') : ∃ fs es,
      Lowers options.fault known items fs es ∧
      progress'.functions.toList = progress.functions.toList ++ fs ∧
      progress'.exports.toList = progress.exports.toList ++ es ∧
      progress'.statements.toList = progress.statements.toList ++
        items.filter (fun item => !Meaning.isDefinition item) ∧
      progress'.symbols.Tabulates (known ++ es) := by
  induction items generalizing known progress with
  | nil =>
    cases h
    exact ⟨[], [], .nil, by simp, by simp, by simp, by simpa using ht⟩
  | cons item rest ih =>
    rw [List.foldlM_cons] at h
    obtain ⟨mid, hitem, h⟩ := except_bind_ok h
    unfold lowerItem at hitem
    split at hitem
    · obtain ⟨⟨f, entry, symbols⟩, hlower, hitem⟩ := except_bind_ok hitem
      obtain ⟨b, hcompiled, rfl, hsymbols⟩ := lowerFunction_compiled ht hlower
      cases hitem
      obtain ⟨fs, es, hrest, hfs, hes, hstatements, ht'⟩ := ih hsymbols h
      refine ⟨_, _, .function hcompiled hrest, ?_, ?_, ?_, ?_⟩
      · simpa using hfs
      · simpa using hes
      · simpa [Meaning.isDefinition] using hstatements
      · simpa using ht'
    · next hno =>
      cases hitem
      have hstatement : Meaning.isDefinition item = false := by
        unfold Meaning.isDefinition
        split
        · exact absurd rfl (hno _ _ _ _)
        · rfl
      obtain ⟨fs, es, hrest, hfs, hes, hstatements, ht'⟩ := ih (show (Progress.mk progress.symbols _ _
        (progress.statements.push item)).symbols.Tabulates known from ht) h
      refine ⟨fs, es, .statement hstatement hrest, hfs, hes, ?_, ht'⟩
      simpa [hstatement] using hstatements

/-- A unit: its definitions, and its top-level statements, which make one more function. -/
inductive UnitLowers (config : FaultConfig) (known : List Export) (unitName : String)
    (items : List Tree) : Emission → Prop
  | definitions {fs es} : Lowers config known items fs es →
      items.filter (fun item => !Meaning.isDefinition item) = [] →
      UnitLowers config known unitName items ⟨⟨fs⟩, es, none⟩
  | statements {fs es b f} : Lowers config known items fs es →
      items.filter (fun item => !Meaning.isDefinition item) ≠ [] →
      Compiled config (known ++ es)
        (.statements unitName (items.filter fun item => !Meaning.isDefinition item)) b f →
      UnitLowers config known unitName items ⟨⟨fs ++ [f]⟩, es, some unitName⟩

theorem importExports_tabulates (h : importExports exports = .ok symbols) :
    symbols.Tabulates exports := by
  suffices h : ∀ {known : List Export} {t : SymbolTable}, t.Tabulates known →
      exports.foldlM (fun symbols e => return (← symbols.define e.name e.binding).2) t =
        (.ok symbols : Except LoweringError SymbolTable) →
      symbols.Tabulates (known ++ exports) from h SymbolTable.tabulates_empty ‹_›
  clear h
  induction exports with
  | nil =>
    intro known t ht h
    cases h
    simpa using ht
  | cons e rest ih =>
    intro known t ht h
    rw [List.foldlM_cons] at h
    obtain ⟨mid, hfirst, hrest⟩ := except_bind_ok h
    obtain ⟨⟨id, t₁⟩, hdefine, hmid⟩ := except_bind_ok hfirst
    cases hmid
    simpa using ih (ht.define hdefine) hrest

/-- A unit can be seeded with exports whose names differ. -/
theorem importExports_total (hexports : (exports.map Export.name).Nodup) :
    ∃ symbols, importExports exports = .ok symbols := by
  suffices h : ∀ {known : List Export} {t : SymbolTable}, t.Tabulates known →
      ((known ++ exports).map Export.name).Nodup → ∃ symbols,
      exports.foldlM (fun symbols e => return (← symbols.define e.name e.binding).2) t =
        (.ok symbols : Except LoweringError SymbolTable) from
    h SymbolTable.tabulates_empty hexports
  clear hexports
  induction exports with
  | nil => exact fun {_ t} _ _ => ⟨t, rfl⟩
  | cons e rest ih =>
    intro known t ht hdistinct
    have hnew : t.innermost.lookup e.name = none := by
      rw [← ht.entries_eq, ← SymbolTable.lookup?_eq]
      cases hlookup : t.lookup? e.name with
      | none => rfl
      | some s =>
        obtain ⟨e', he', hname, -⟩ := ht.export_of_lookup hlookup
        rw [List.map_append, List.nodup_append] at hdistinct
        exact absurd hname (hdistinct.2.2 _ (List.mem_map_of_mem he') _ (by simp))
    have hdefine : ∃ x t₁, t.define e.name e.binding = .ok (x, t₁) := by
      unfold SymbolTable.define
      rw [hnew]
      exact ⟨_, _, rfl⟩
    obtain ⟨x, t₁, hdefine⟩ := hdefine
    obtain ⟨symbols, hrest⟩ := ih (ht.define hdefine) (by simpa using hdistinct)
    refine ⟨symbols, ?_⟩
    rw [List.foldlM_cons, hdefine]
    exact hrest

/-- Lowering a unit does what the relation says. -/
theorem lowerUnit_lowers {unitName : String} {tree : Tree} {emission : Emission}
    (h : lowerUnit options exports unitName (some tree) = .ok emission) :
    UnitLowers options.fault exports unitName tree.items emission := by
  obtain ⟨symbols, himport, h⟩ := except_bind_ok h
  obtain ⟨progress, hitems, h⟩ := except_bind_ok h
  obtain ⟨fs, es, hlowers, hfs, hes, hstatements, ht⟩ :=
    lowerItems_lowers (importExports_tabulates himport) hitems
  simp only [List.nil_append] at hfs hes hstatements
  split at h
  · next hempty =>
    cases h
    rw [hfs, hes]
    refine .definitions hlowers ?_
    rw [← hstatements]
    simpa using hempty
  · next hempty =>
    obtain ⟨f, hlower, h⟩ := except_bind_ok h
    obtain ⟨id, opened, b, closed, ω, hdefine, hmade, hf⟩ := lowerStatements_made hlower
    cases h
    rw [Array.toList_push, hfs, hes]
    refine .statements hlowers ?_ (b := b) ?_
    · rw [← hstatements]
      simpa using hempty
    · rw [hstatements] at hmade
      exact .intro (ht.define (e := ⟨unitName, 0, false⟩) hdefine) hmade hf

end

end Abacus.Lowering

/-! ## Programs -/

namespace Abacus.Machine.Program

variable {p : Program} {name : String}

theorem get?_insert_of_ne {f : Flow.Function} (h : f.name ≠ name) :
    (p.insert f).get? name = p.get? name := by
  unfold insert get?
  split
  · clear * - h
    obtain ⟨functions⟩ := p
    dsimp only
    induction functions with
    | nil => rfl
    | cons g rest ih =>
      by_cases hg : g.name = f.name
      · have hg' : g.name ≠ name := fun he => h (hg.symm.trans he)
        simpa [hg, h, hg'] using ih
      · by_cases hname : g.name = name
        · simp [hname, h.symm]
        · simpa [hg, hname] using ih
  · simp [List.find?_append, h]

/-- The function of a name is the last one linked under it. -/
theorem get?_link (m : Flow.Module) :
    (p.link m).get? name = (m.functions.reverse.find? (·.name = name)).or (p.get? name) := by
  obtain ⟨functions⟩ := m
  unfold link
  induction functions generalizing p with
  | nil => rfl
  | cons f rest ih =>
    rw [List.foldl_cons, show rest.foldl insert (p.insert f) = _ from rfl, ih, List.reverse_cons,
      List.find?_append]
    by_cases hname : f.name = name
    · subst hname
      rw [get?_insert]
      simp
    · rw [get?_insert_of_ne hname]
      simp [hname]

end Abacus.Machine.Program

namespace Abacus.Lowering

open Abacus.Machine (Program)
open Plan

variable {config : FaultConfig} {known exports es : List Export} {items : List Tree}
  {fs : List Flow.Function}

theorem Compiled.distinct {routine : Routine} {b : Bool} {f : Flow.Function}
    (h : Compiled config known routine b f) :
    (known.map Export.name).Nodup ∧ routine.name ∉ known.map Export.name := by
  obtain ⟨htable, -, -⟩ := h
  have hdistinct := htable.distinct
  rw [List.map_append, List.nodup_append] at hdistinct
  exact ⟨hdistinct.1, fun hmem => hdistinct.2.2 _ hmem _ (by simp) rfl⟩

/-- Each name is exported once. -/
theorem Lowers.distinct (h : Lowers config known items fs es)
    (hknown : (known.map Export.name).Nodup) : ((known ++ es).map Export.name).Nodup := by
  induction h with
  | nil => simpa using hknown
  | @function known span name parameters body b f rest fs es hcompiled _ ih =>
    have hname := hcompiled.distinct.2
    have hnext := ih (by
      rw [List.map_append, List.nodup_append]
      refine ⟨hknown, by simp, fun a ha c hc => ?_⟩
      obtain rfl : c = name := by simpa using hc
      exact fun hac => hname (hac ▸ ha))
    simpa using hnext
  | statement _ _ ih => exact ih hknown

/-! ## What the functions mean -/

theorem functionsFrom_cons_statement {item : Tree} (h : Meaning.isDefinition item = false)
    (visible : List String) (rest : List Tree) :
    Meaning.functionsFrom visible (item :: rest) = Meaning.functionsFrom visible rest := by
  obtain ⟨span, shape⟩ := item
  cases shape <;> first | rfl | cases h

/-- How a routine is evaluated, where some functions are known. -/
def Plan.Routine.meaning (visible : List String) : Routine → Meaning.Definition
  | .definition name parameters body => ⟨name, parameters, body.items, false, visible⟩
  | .statements name items => ⟨name, [], items, true, visible⟩

/-- The names are those of the exports. -/
def NamesOf (visible : List String) (exports : List Export) : Prop :=
  ∀ name, name ∈ visible ↔ name ∈ exports.map Export.name

/-- The definition is what is evaluated for a routine where the functions `known` and itself are
known. -/
def Plan.Routine.Means (routine : Routine) (known : List Export) (d : Meaning.Definition) : Prop :=
  ∃ visible, d = routine.meaning visible ∧
    NamesOf visible (known ++ [⟨routine.name, routine.arity, false⟩])

section

variable {visible : List String} {unitName : String}

theorem NamesOf.cons (h : NamesOf visible exports) {name : String} (arity : Nat) (b : Bool) :
    NamesOf (name :: visible) (exports ++ [⟨name, arity, b⟩]) := by
  intro other
  simp [h other, or_comm]

/-- Each definition is one function more, and no other item is. -/
theorem Lowers.definitionNames (h : Lowers config known items fs es) (visible : List String) :
    (Meaning.functionsFrom visible items).map Meaning.Definition.name = es.map Export.name := by
  induction h generalizing visible with
  | nil => rfl
  | function _ _ ih => exact congrArg _ (ih _)
  | statement hstatement _ ih => rw [functionsFrom_cons_statement hstatement, ih]

theorem Lowers.namesOf (h : Lowers config known items fs es) (hvisible : NamesOf visible known) :
    NamesOf ((Meaning.functionsFrom visible items).map Meaning.Definition.name ++ visible)
      (known ++ es) := by
  intro name
  rw [h.definitionNames, List.mem_append, List.map_append, List.mem_append, hvisible name, or_comm]

theorem mem_definitions_of_mem {d : Meaning.Definition} (h : d ∈ Meaning.functionsFrom visible items) :
    d ∈ Meaning.definitions visible unitName items := by
  unfold Meaning.definitions
  dsimp only
  split
  · exact h
  · exact List.mem_append_left _ h

theorem mem_definitions_unit (h : items.filter (fun item => !Meaning.isDefinition item) ≠ []) :
    (Routine.statements unitName (items.filter fun item => !Meaning.isDefinition item)).meaning
      (unitName :: ((Meaning.functionsFrom visible items).map Meaning.Definition.name ++ visible)) ∈
      Meaning.definitions visible unitName items := by
  unfold Meaning.definitions
  dsimp only
  rw [if_neg (by simpa using h)]
  exact List.mem_append_right _ (List.mem_singleton_self _)

end

/-- The functions of the definitions, what was known of them, and what they mean. -/
theorem Lowers.compiled (h : Lowers config known items fs es) : (∀ f ∈ fs, ∃ known' routine b,
    Compiled config known' routine b f ∧ known' ⊆ known ++ es ∧
      ⟨routine.name, routine.arity, b⟩ ∈ known ++ es ∧
      ∀ visible, NamesOf visible known → ∃ d ∈ Meaning.functionsFrom visible items,
        routine.Means known' d) ∧ ∀ e ∈ es, ∃ f ∈ fs, f.name = e.name := by
  induction h with
  | nil => simp
  | @function known span name parameters body b f rest fs es hcompiled _ ih =>
    rw [List.append_assoc, List.singleton_append] at ih
    refine ⟨fun g hg => ?_, fun e he => ?_⟩
    · rcases List.mem_cons.1 hg with rfl | hg
      · exact ⟨known, _, b, hcompiled, List.subset_append_left .., by simp [Routine.name, Routine.arity],
          fun visible hvisible => ⟨_, List.mem_cons_self, _, rfl, hvisible.cons _ false⟩⟩
      · obtain ⟨known', routine, b', hcompiled', hknown, hmem, hmeans⟩ := ih.1 g hg
        refine ⟨known', routine, b', hcompiled', hknown, hmem, fun visible hvisible => ?_⟩
        obtain ⟨d, hd, hmeans⟩ := hmeans (name :: visible) (hvisible.cons _ b)
        exact ⟨d, List.mem_cons_of_mem _ hd, hmeans⟩
    · rcases List.mem_cons.1 he with rfl | he
      · exact ⟨f, List.mem_cons_self, hcompiled.name⟩
      · obtain ⟨g, hg, hname⟩ := ih.2 e he
        exact ⟨g, List.mem_cons_of_mem _ hg, hname⟩
  | statement hstatement _ ih =>
    refine ⟨fun g hg => ?_, ih.2⟩
    obtain ⟨known', routine, b', hcompiled', hknown, hmem, hmeans⟩ := ih.1 g hg
    refine ⟨known', routine, b', hcompiled', hknown, hmem, fun visible hvisible => ?_⟩
    rw [functionsFrom_cons_statement hstatement]
    exact hmeans visible hvisible

/-- A program and the exports of its units. What was known when a function was lowered is exported;
if the function is exported itself, then under its name, with its arity and its fault flag. -/
structure Linked (config : FaultConfig) (p : Program) (exports : List Export) : Prop where
  compiled : ∀ {name f}, p.get? name = some f → ∃ known routine b,
    Compiled config known routine b f ∧ routine.name = name ∧ known ⊆ exports ∧
      ∀ e ∈ exports, e.name = name → e = ⟨name, routine.arity, b⟩
  exported : ∀ e ∈ exports, ∃ f, p.get? e.name = some f
  distinct : (exports.map Export.name).Nodup

theorem linked_empty : Linked config Program.empty [] where
  compiled h := by cases h
  exported := by simp
  distinct := .nil

/-- The functions of a unit, what was known of them, and what they mean. -/
theorem UnitLowers.compiled {unitName : String} {emission : Emission}
    (h : UnitLowers config exports unitName items emission)
    (hexports : (exports.map Export.name).Nodup) :
    ((exports ++ emission.exports).map Export.name).Nodup ∧
    (∀ f ∈ emission.module.functions, ∃ known routine b, Compiled config known routine b f ∧
      known ⊆ exports ++ emission.exports ∧ (∀ e ∈ exports ++ emission.exports,
        e.name = routine.name → e = ⟨routine.name, routine.arity, b⟩) ∧
      ∀ visible, NamesOf visible exports → ∃ d ∈ Meaning.definitions visible unitName items,
        routine.Means known d) ∧
    ∀ e ∈ emission.exports, ∃ f ∈ emission.module.functions, f.name = e.name := by
  -- The functions of the definitions are exported.
  have hdefinitions : ∀ {fs es}, Lowers config exports items fs es → ∀ f ∈ fs, ∃ known routine b,
      Compiled config known routine b f ∧ known ⊆ exports ++ es ∧ (∀ e ∈ exports ++ es,
        e.name = routine.name → e = ⟨routine.name, routine.arity, b⟩) ∧
      ∀ visible, NamesOf visible exports → ∃ d ∈ Meaning.definitions visible unitName items,
        routine.Means known d := by
    intro fs es hlowers f hf
    obtain ⟨known, routine, b, hcompiled, hknown, hmem, hmeans⟩ := hlowers.compiled.1 f hf
    refine ⟨known, routine, b, hcompiled, hknown, fun e he hname =>
      List.inj_on_of_nodup_map (hlowers.distinct hexports) he hmem hname, fun visible hvisible => ?_⟩
    obtain ⟨d, hd, hmeans⟩ := hmeans visible hvisible
    exact ⟨d, mem_definitions_of_mem hd, hmeans⟩
  cases h with
  | definitions hlowers _ =>
    exact ⟨hlowers.distinct hexports, hdefinitions hlowers, hlowers.compiled.2⟩
  | @statements fs es b g hlowers hstatements hcompiled =>
    refine ⟨hlowers.distinct hexports, fun f hf => ?_, fun e he => ?_⟩
    · rcases List.mem_append.1 hf with hf | hf
      · exact hdefinitions hlowers f hf
      · rw [List.mem_singleton.1 hf]
        refine ⟨_, _, b, hcompiled, List.Subset.refl _, fun e he hname => ?_, fun visible hvisible => ?_⟩
        · exact absurd (List.mem_map.2 ⟨e, he, hname⟩) hcompiled.distinct.2
        · refine ⟨_, mem_definitions_unit hstatements, _, rfl, ?_⟩
          exact (hlowers.namesOf hvisible).cons _ false
    · obtain ⟨f, hf, hname⟩ := hlowers.compiled.2 e he
      exact ⟨f, List.mem_append_left _ hf, hname⟩

/-- A further unit is linked. -/
theorem Linked.unit {p : Program} (h : Linked config p exports) {unitName : String}
    {emission : Emission} (hunit : UnitLowers config exports unitName items emission) :
    Linked config (p.link emission.module) (exports ++ emission.exports) := by
  obtain ⟨hdistinct, hfunctions, hexported⟩ := hunit.compiled h.distinct
  constructor
  case distinct => exact hdistinct
  case compiled =>
    intro name f hget
    rw [Program.get?_link, Option.or_eq_some_iff] at hget
    rcases hget with hget | ⟨hnone, hget⟩
    · obtain ⟨known, routine, b, hcompiled, hknown, hname, -⟩ :=
        hfunctions f (List.mem_reverse.1 (List.mem_of_find?_eq_some hget))
      have hf : f.name = name := by simpa using List.find?_some hget
      obtain rfl : routine.name = name := hcompiled.name.symm.trans hf
      exact ⟨known, routine, b, hcompiled, rfl, hknown, hname⟩
    · obtain ⟨known, routine, b, hcompiled, hname, hknown, hexports⟩ := h.compiled hget
      refine ⟨known, routine, b, hcompiled, hname,
        fun e he => List.mem_append_left _ (hknown he), fun e he hename => ?_⟩
      rcases List.mem_append.1 he with he | he
      · exact hexports e he hename
      · -- The new function of that name would have been found.
        obtain ⟨g, hg, hgname⟩ := hexported e he
        have hno := List.find?_eq_none.1 hnone g (List.mem_reverse.2 hg)
        exact absurd (hgname.trans hename) (by simpa using hno)
  case exported =>
    intro e he
    rw [Program.get?_link]
    rcases List.mem_append.1 he with he | he
    · obtain ⟨f, hf⟩ := h.exported e he
      cases emission.module.functions.reverse.find? (·.name = e.name) with
      | none => exact ⟨f, hf⟩
      | some g => exact ⟨g, rfl⟩
    · obtain ⟨g, hg, hname⟩ := hexported e he
      cases hfind : emission.module.functions.reverse.find? (·.name = e.name) with
      | none =>
        have hno := List.find?_eq_none.1 hfind g (List.mem_reverse.2 hg)
        exact absurd hname (by simpa using hno)
      | some f => exact ⟨f, rfl⟩

end Abacus.Lowering

namespace Abacus

open Abacus.Lowering (Options Linked Emission lowerUnit_lowers linked_empty)

/-- The sessions that units lead to which compile, one after the other. -/
inductive Session.Reached (options : Options) : Session → Prop
  | start (fuel : Nat) : Reached options (Session.start options fuel)
  | unit {s s' : Session} {source : String} {emission : Emission} : Reached options s →
      s.compileUnit source = .ok (emission, s') → Reached options s'

theorem compileTree_ok {options : Options} {exports : List Lowering.Export} {unitName : String}
    {tree : Tree} {emission : Emission}
    (h : compileTree options exports unitName tree = .ok emission) :
    Lowering.lowerUnit options exports unitName (some tree) = .ok emission := by
  unfold compileTree at h
  split at h
  · next heq =>
    cases h
    exact heq
  · cases h

/-- The program of a session is linked from the units that it has compiled. -/
theorem Session.Reached.linked {options : Options} {s : Session} (h : Reached options s) :
    s.options = options ∧ Linked options.fault s.program s.exports := by
  induction h with
  | start => exact ⟨rfl, linked_empty⟩
  | @unit s s' source emission _ hcompile ih =>
    obtain ⟨hoptions, hlinked⟩ := ih
    obtain ⟨tree, -, hcompile⟩ := Lowering.except_bind_ok hcompile
    obtain ⟨emission', htree, hcompile⟩ := Lowering.except_bind_ok hcompile
    cases hcompile
    have hunit := lowerUnit_lowers (compileTree_ok htree)
    rw [hoptions] at hunit
    exact ⟨hoptions, hlinked.unit hunit⟩

/-- So is the program of a unit that has been compiled alone. -/
theorem linked_of_compileTree {options : Options} {unitName : String} {tree : Tree}
    {emission : Emission} (h : compileTree options [] unitName tree = .ok emission) :
    Linked options.fault (Machine.Program.ofModule emission.module) emission.exports :=
  linked_empty.unit (lowerUnit_lowers (compileTree_ok h))

end Abacus
