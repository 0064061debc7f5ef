import Abacus.Proofs.Naming.Bodies
import Abacus.Proofs.Source.Parsing

/-!
# Lowering a unit walks through its names

What the lowering of a body does with names, the lowering of a whole unit does: it gives a result if
and only if nothing is wrong on the walk through the unit, and otherwise stops with the first thing
that is.

* `Accords` — a computation agrees with a walk;
* `lowerFunction_accords`, `lowerStatements_accords` — functions and top-level statements;
* `lowerUnit_accords` — units.
-/

namespace Abacus.Lowering

open Abacus.Flow (Value Block Ty Function)
open Plan

/-! ## Agreement -/

section

variable {α β : Type} {x : Except LoweringError α} {next : α → Except LoweringError β}
  {walked : Except LoweringError Scopes} {walkNext : Scopes → Except LoweringError Scopes}
  {post : α → Scopes → Prop} {post' : β → Scopes → Prop}

/-- A computation gives a result if and only if the walk comes to its end, and otherwise fails with
what the walk has stopped with. -/
def Accords (x : Except LoweringError α) (walked : Except LoweringError Scopes)
    (post : α → Scopes → Prop) : Prop :=
  match walked with
  | .ok scopes => ∃ a, x = .ok a ∧ post a scopes
  | .error e => x = .error e

theorem Accords.bind (h : Accords x walked post)
    (hnext : ∀ a scopes, x = .ok a → post a scopes → Accords (next a) (walkNext scopes) post') :
    Accords (x >>= next) (walked >>= walkNext) post' := by
  cases walked with
  | error e =>
    rw [show x = .error e from h]
    rfl
  | ok scopes =>
    obtain ⟨a, rfl, ha⟩ := h
    exact hnext a scopes rfl ha

/-- What is made of the result does not matter to the walk. -/
theorem Accords.map (h : Accords x walked post) {f : α → Except LoweringError β}
    (hf : ∀ a scopes, x = .ok a → post a scopes → ∃ b, f a = .ok b ∧ post' b scopes) :
    Accords (x >>= f) walked post' := by
  cases walked with
  | error e =>
    rw [show x = .error e from h]
    rfl
  | ok scopes =>
    obtain ⟨a, rfl, ha⟩ := h
    exact hf a scopes rfl ha

theorem LoweringError.locate_none (e : LoweringError) : e.locate Span.none = e := by
  unfold locate
  split
  · next hnone => rw [← hnone]
  · rfl

/-- Work on a body that gives its errors places agrees with its walk. -/
theorem Lower.Walks.accords {work : Lower α} {s : State} {events : List NameEvent}
    (h : Lower.Walks Span.none work s events) : Accords (work s) (walk s.symbols.names events)
      fun result scopes => result.2.symbols.names = scopes := by
  unfold Lower.Walks at h
  unfold Accords
  cases hwalk : walk s.symbols.names events with
  | ok scopes =>
    rw [hwalk] at h
    obtain ⟨a, s', hwork, hnames⟩ := h
    exact ⟨(a, s'), hwork, hnames⟩
  | error e =>
    rw [hwalk] at h
    obtain ⟨⟨e', hwork, he⟩, hplace⟩ := h
    exact hwork.trans (congrArg Except.error (e'.locate_none.symm.trans he))

end

/-! ## Opening and closing -/

variable {options : Options} {symbols opened : SymbolTable} {known exports : List Export}
  {σ σ' : Plan} {name : String}

/-- A function is opened if its name is new. -/
theorem openFunction_accords (symbols : SymbolTable) (span : Span) (name : String) (arity : Nat) :
    Accords (locateError span (openFunction symbols name arity))
      (walk symbols.names [.define span name (.function arity)]) fun s scopes =>
        s.symbols.names = scopes ∧ ∃ id σ,
          symbols.define name (.function arity false) = .ok (id, s.symbols) ∧
          Opens name arity σ ∧ s = ⟨s.symbols, σ.record.draft, false⟩ := by
  have hstep := symbols.define_names name (.function arity false) span
  rw [walk_cons]
  unfold Accords
  rw [show Binding.kind (.function arity false) = .function arity from rfl] at hstep
  cases hdefine : (NameEvent.define span name (.function arity)).step symbols.names with
  | ok scopes =>
    rw [hdefine] at hstep
    obtain ⟨id, t, ht, hnames⟩ := hstep
    obtain ⟨σ, hopens, hopen⟩ := openFunction_total ht
    exact ⟨_, by rw [hopen]; rfl, hnames, id, σ, ht, hopens, rfl⟩
  | error e =>
    rw [hdefine] at hstep
    obtain ⟨e', ht, he⟩ := hstep
    show locateError span (openFunction symbols name arity) = .error e
    unfold openFunction
    rw [ht, ← he]
    rfl

/-- The fault flags of exports do not matter to names. -/
theorem Scopes.ofExports_flag (known : List Export) (name : String) (arity : Nat) (b b' : Bool) :
    Scopes.ofExports (known ++ [⟨name, arity, b⟩]) = Scopes.ofExports (known ++ [⟨name, arity, b'⟩]) := by
  unfold ofExports
  refine congrArg (fun names => [names]) (funext fun other => ?_)
  rw [List.find?_append, List.find?_append]
  cases known.find? (·.name = other) with
  | some e => rfl
  | none => by_cases hother : name = other <;> simp [hother]

/-- Functions that have been opened are known in their bodies, and no other names are new. -/
theorem opened_tabulates {arity : Nat} {id : SymbolId} (ht : symbols.Tabulates known)
    (hdefine : symbols.define name (.function arity false) = .ok (id, opened)) :
    opened.Tabulates (known ++ [⟨name, arity, false⟩]) := ht.define hdefine

/-! ## Functions and units -/

/-- A definition is lowered if nothing is wrong on the walk through it. -/
theorem lowerFunction_accords {span : Span} {names : List String} {bodySpan : Span} {ts : List Tree}
    (ht : symbols.Tabulates known) (hspan : span.IsPlace) (hts : ∀ t ∈ ts, t.IsStatement) :
    Accords (lowerFunction options symbols span name names (.node bodySpan (.list ts)))
      (walk symbols.names (NameEvent.ofDefinition
        (.node span (.fnDef name names (.node bodySpan (.list ts))))))
      fun result scopes => result.2.2.names = scopes := by
  have hsplit : NameEvent.ofDefinition (.node span (.fnDef name names (.node bodySpan (.list ts)))) =
      [.define span name (.function names.length)] ++
        NameEvent.enclosed (names.map (.define span · .var) ++ NameEvent.ofStatements ts) := rfl
  rw [hsplit, walk_append]
  unfold lowerFunction
  refine (openFunction_accords symbols span name names.length).bind ?_
  rintro s scopes - ⟨rfl, id, σ, hdefine, hopens, hs⟩
  have hopened := opened_tabulates ht hdefine
  have hdraft : s.draft = σ.record.draft := by rw [hs]
  refine (Lower.walks_definition hts hspan hdraft hopens hopened.global Span.none).accords.map ?_
  rintro ⟨⟨⟩, s'⟩ scopes hbody rfl
  obtain ⟨σ', hdraft', b, hmade, hs'⟩ :=
    Lower.leads_definition options.fault span _ hopens hdraft () s' hbody
  obtain ⟨hscopes, horderly⟩ := hmade.closed hopened.global
  have hclosed := hopened.of_scopes hscopes horderly
  obtain ⟨symbol, hsymbol, -⟩ := hclosed.lookup_of_export (List.mem_append_right _ List.mem_cons_self)
  have hname : (s'.symbols.lookup? name).isSome := Option.isSome_iff_exists.2 ⟨symbol, hsymbol⟩
  obtain ⟨f, symbols', hclose⟩ : ∃ f symbols,
      closeFunction options name names.length none s' = .ok (f, symbols) :=
    closeFunction_total hdraft' hmade hname
  obtain ⟨_, -, hready, -⟩ := hmade.advance
  obtain ⟨-, -, -, hflagged⟩ := closeFunction_ok hdraft' hready hclose
  refine ⟨(f, ⟨name, names.length, s'.mayFault⟩, symbols'), ?_, ?_⟩
  · dsimp only
    rw [hclose]
    rfl
  · show symbols'.names = s'.symbols.names
    rw [(hclosed.flagged hflagged).names_eq, hclosed.names_eq]
    exact Scopes.ofExports_flag ..

/-- A number can be made into the result of top-level statements. -/
theorem integerResult_total {last? : Option Value} {s : State} (hdraft : s.draft = σ.record.draft)
    (h : ∀ v ∈ last?, (σ.builder.ty v).IsNumber) :
    ∃ r s', integerResult last? s = .ok (r, s') := by
  cases last? with
  | none => exact ⟨none, s, rfl⟩
  | some v =>
    have hwalks : Lower.Walks Span.none (Lower.coerce v .int) s [] :=
      Lower.walks_coerce hdraft (h v rfl) (.inl rfl)
    obtain ⟨v', s', hcoerce, -⟩ := hwalks
    exact ⟨some v', s', by rw [integerResult, hcoerce]; rfl⟩

/-- Top-level statements are lowered if nothing is wrong on the walk through them. -/
theorem lowerStatements_accords {first : Tree} {rest : List Tree} (ht : symbols.Tabulates known)
    (hts : ∀ t ∈ first :: rest, t.IsStatement) :
    Accords (lowerStatements options symbols name (first :: rest))
      (walk symbols.names (NameEvent.ofTopLevel name (first :: rest))) fun _ _ => True := by
  have hsplit : NameEvent.ofTopLevel name (first :: rest) =
      [.define first.span name (.function 0)] ++
        NameEvent.enclosed (NameEvent.ofStatements (first :: rest)) := rfl
  rw [hsplit, walk_append, lowerStatements_eq]
  refine (openFunction_accords symbols first.span name 0).bind ?_
  rintro s scopes - ⟨rfl, id, σ, hdefine, hopens, hs⟩
  have hopened := opened_tabulates ht hdefine
  have hdraft : s.draft = σ.record.draft := by rw [hs]
  have hfit := hopens.fit hopened.global
  refine (Lower.walks_topLevel hts hdraft hfit).accords.map ?_
  rintro ⟨last?, s'⟩ scopes hbody rfl
  obtain ⟨σ₁, hdraft₁, b, symbols₁, hitems, hpop, hs'⟩ :=
    Lower.leads_topLevel options.fault (first :: rest) hopens.begun.ready hdraft last? s' hbody
  obtain ⟨r, s'', hresult⟩ := integerResult_total hdraft₁ (hitems.number hfit.pushScope)
  obtain ⟨σ₂, hresulting, rfl⟩ := integerResult_ok hdraft₁ hresult
  have hmade : Body options.fault s.symbols (.statements name (first :: rest)) b r s'.symbols σ₂ :=
    .statements hopens hitems hpop hresulting
  obtain ⟨hscopes, horderly⟩ := hmade.closed hopened.global
  obtain ⟨symbol, hsymbol, -⟩ := (hopened.of_scopes hscopes horderly).lookup_of_export
    (List.mem_append_right _ List.mem_cons_self)
  obtain ⟨f, symbols', hclose⟩ : ∃ f symbols,
      closeFunction options name 0 r { s' with draft := σ₂.record.draft } = .ok (f, symbols) :=
    closeFunction_total rfl hmade (Option.isSome_iff_exists.2 ⟨symbol, hsymbol⟩)
  refine ⟨f, ?_, trivial⟩
  dsimp only
  rw [hresult]
  exact congrArg (· >>= fun result => pure result.1) hclose

theorem isDefinition_of_isStatement {t : Tree} (h : t.IsStatement) :
    Meaning.isDefinition t = false := by
  cases h with
  | expression h => cases h <;> rfl
  | _ => rfl

/-- A statement is kept for later. -/
theorem lowerItem_of_statement {t : Tree} (h : Meaning.isDefinition t = false) (progress : Progress) :
    lowerItem options progress t =
      .ok { progress with statements := progress.statements.push t } ∧
    NameEvent.ofDefinition t = [] := by
  obtain ⟨span, shape⟩ := t
  cases shape with
  | fnDef => cases h
  | _ => exact ⟨rfl, rfl⟩

/-- The items of a unit, one after the other. -/
theorem lowerItems_accords {items : List Tree} {progress : Progress}
    (ht : progress.symbols.Tabulates known) (hitems : ∀ t ∈ items, t.IsItem) :
    Accords (items.foldlM (lowerItem options) progress)
      (walk progress.symbols.names (items.flatMap NameEvent.ofDefinition))
      fun progress' scopes => progress'.symbols.names = scopes := by
  induction items generalizing known progress with
  | nil => exact ⟨progress, rfl, rfl⟩
  | cons item rest ih =>
    rw [List.foldlM_cons, List.flatMap_cons, walk_append]
    have hrest : ∀ t ∈ rest, t.IsItem := fun t ht => hitems t (List.mem_cons_of_mem _ ht)
    cases hitems item List.mem_cons_self with
    | @fnDef span name parameters bodySpan ts hspan hts =>
      have hdefinition : Accords (lowerItem options progress
          (.node span (.fnDef name parameters (.node bodySpan (.list ts)))))
          (walk progress.symbols.names (NameEvent.ofDefinition
            (.node span (.fnDef name parameters (.node bodySpan (.list ts))))))
          fun progress' scopes => progress'.symbols.names = scopes ∧
            ∃ known, progress'.symbols.Tabulates known := by
        refine Accords.map (lowerFunction_accords ht hspan hts) ?_
        rintro ⟨f, entry, symbols'⟩ scopes hlower rfl
        obtain ⟨b, -, -, htable⟩ := lowerFunction_compiled ht hlower
        exact ⟨_, rfl, rfl, _, htable⟩
      refine hdefinition.bind ?_
      rintro progress' scopes - ⟨rfl, known', ht'⟩
      exact ih ht' hrest
    | statement hstatement =>
      obtain ⟨hlower, hevents⟩ : lowerItem options progress item =
          .ok { progress with statements := progress.statements.push item } ∧
          NameEvent.ofDefinition item = [] :=
        lowerItem_of_statement (isDefinition_of_isStatement hstatement) progress
      have ht' : Progress.symbols { progress with
          statements := progress.statements.push item } |>.Tabulates known := ht
      rw [hlower, hevents]
      exact ih ht' hrest

/-- A unit is lowered if nothing is wrong on the walk through it. -/
theorem lowerUnit_accords {unitName : String} {tree : Tree}
    (hexports : (exports.map Export.name).Nodup) (hitems : ∀ t ∈ tree.items, t.IsItem) :
    Accords (lowerUnit options exports unitName (some tree))
      (walk (Scopes.ofExports exports) (NameEvent.ofUnit unitName tree)) fun _ _ => True := by
  obtain ⟨symbols, himport⟩ := importExports_total hexports
  have ht := importExports_tabulates himport
  unfold lowerUnit
  rw [himport, NameEvent.ofUnit, walk_append, ← ht.names_eq]
  have ht₀ : (Progress.mk symbols #[] #[] #[]).symbols.Tabulates exports := ht
  show Accords (tree.items.foldlM (lowerItem options) ⟨symbols, #[], #[], #[]⟩ >>= _) _ _
  refine Accords.bind (lowerItems_accords ht₀ hitems) ?_
  rintro progress scopes hfold rfl
  obtain ⟨fs, es, -, -, -, hstatements, ht'⟩ := lowerItems_lowers ht₀ hfold
  rw [List.nil_append] at hstatements
  rw [← hstatements]
  cases hlist : progress.statements.toList with
  | nil =>
    have hempty : progress.statements.isEmpty = true := by simpa using hlist
    exact ⟨⟨⟨progress.functions.toList⟩, progress.exports.toList, none⟩,
      by rw [if_pos hempty]; rfl, trivial⟩
  | cons first rest =>
    have hsome : ¬ progress.statements.isEmpty = true := by
      intro hempty
      rw [show progress.statements.toList = [] by simpa using hempty] at hlist
      cases hlist
    have hts : ∀ t ∈ first :: rest, t.IsStatement := by
      intro t htmem
      rw [← hlist, hstatements, List.mem_filter] at htmem
      cases hitems t htmem.1 with
      | fnDef => simp [Meaning.isDefinition] at htmem
      | statement h => exact h
    rw [if_neg hsome]
    refine (lowerStatements_accords ht' hts).map ?_
    exact fun f _ _ _ => ⟨_, rfl, trivial⟩

/-- For every unit whose trees stand where they belong, and exports whose names differ: the unit is
lowered if and only if nothing is wrong on the walk through its names, and otherwise the first thing
that is wrong is reported, at its place. -/
theorem lowerUnit_wellScoped (options : Options) (unitName : String) {tree : Tree}
    (hexports : (exports.map Export.name).Nodup) (hitems : ∀ t ∈ tree.items, t.IsItem) :
    ((∃ emission, lowerUnit options exports unitName (some tree) = .ok emission) ↔
        WellScoped (Scopes.ofExports exports) (NameEvent.ofUnit unitName tree)) ∧
      ∀ e, lowerUnit options exports unitName (some tree) = .error e ↔
        FirstViolation (Scopes.ofExports exports) (NameEvent.ofUnit unitName tree) e := by
  have h : Accords (lowerUnit options exports unitName (some tree))
      (walk (Scopes.ofExports exports) (NameEvent.ofUnit unitName tree)) fun _ _ => True :=
    lowerUnit_accords hexports hitems
  unfold Accords at h
  simp only [← walk_error_iff]
  cases hwalk : walk (Scopes.ofExports exports) (NameEvent.ofUnit unitName tree) with
  | ok scopes =>
    rw [hwalk] at h
    obtain ⟨emission, hlower, -⟩ := h
    exact ⟨⟨fun _ => (walk_ok_iff.1 hwalk).1, fun _ => ⟨emission, hlower⟩⟩, by simp [hlower]⟩
  | error e =>
    rw [hwalk] at h
    have hlower : lowerUnit options exports unitName (some tree) = .error e := h
    refine ⟨⟨?_, fun hscoped => ?_⟩, fun e' => by rw [hlower, Except.error.injEq, Except.error.injEq]⟩
    · rintro ⟨emission, hlowered⟩
      rw [hlower] at hlowered
      cases hlowered
    · rw [walk_ok_iff.2 ⟨hscoped, rfl⟩] at hwalk
      cases hwalk

/-! ## Parsed units -/

/-- What can be wrong with a name: it is defined twice, not known as what it is used for, or called
with too many or too few arguments. -/
theorem FirstViolation.cause {scopes : Scopes} {events : List NameEvent} {e : LoweringError}
    (h : FirstViolation scopes events e) :
    (∃ name, e.cause = .duplicate name) ∨ (∃ kind name, e.cause = .unknown kind name) ∨
      ∃ name expected found, e.cause = .arity name expected found := by
  obtain ⟨front, event, back, -, -, hviolation⟩ := h
  unfold NameEvent.violation? at hviolation
  split at hviolation
  · split at hviolation <;> cases hviolation
    exact .inr (.inl ⟨_, _, rfl⟩)
  · split at hviolation
    · split at hviolation <;> cases hviolation
      exact .inr (.inr ⟨_, _, _, rfl⟩)
    · cases hviolation
      exact .inr (.inl ⟨_, _, rfl⟩)
    · split at hviolation
      · split at hviolation <;> cases hviolation
        exact .inr (.inr ⟨_, _, _, rfl⟩)
      · cases hviolation
        exact .inr (.inl ⟨_, _, rfl⟩)
  · split at hviolation <;> cases hviolation
    exact .inl ⟨_, rfl⟩
  · cases hviolation
  · cases hviolation

/-- A parsed unit is lowered, whatever the options are and whatever names earlier units export, if and
only if it is well scoped. Otherwise its first violation is reported at its place, and no other error
occurs. -/
theorem lowerUnit_iff_wellScoped {source unitName : String} {tree : Tree} {exports : List Export}
    (options : Options) (hparse : parse source = .ok tree)
    (hexports : (exports.map Export.name).Nodup) :
    ((∃ emission, lowerUnit options exports unitName (some tree) = .ok emission) ↔
        WellScoped (Scopes.ofExports exports) (NameEvent.ofUnit unitName tree)) ∧
      (∀ e, lowerUnit options exports unitName (some tree) = .error e ↔
        FirstViolation (Scopes.ofExports exports) (NameEvent.ofUnit unitName tree) e) ∧
      ∀ e, lowerUnit options exports unitName (some tree) = .error e →
        (∃ name, e.cause = .duplicate name) ∨ (∃ kind name, e.cause = .unknown kind name) ∨
          ∃ name expected found, e.cause = .arity name expected found := by
  obtain ⟨haccepted, hrefused⟩ :=
    lowerUnit_wellScoped options unitName hexports (parse_isItem hparse)
  exact ⟨haccepted, hrefused, fun e he => ((hrefused e).1 he).cause⟩

/-- A unit in which a parameter hides a function of an earlier unit is well scoped; one that calls the
parameter is not, and this is reported at the call. -/
theorem lowerUnit_hidden : ∃ good bad : Tree,
    parse "fn f(g)\n  g + pi()\nf(1)\n" = .ok good ∧ parse "fn f(g)\n  g(1, x)\n" = .ok bad ∧
    WellScoped (Scopes.ofExports [⟨"g", 1, true⟩]) (NameEvent.ofUnit "main" good) ∧
    FirstViolation (Scopes.ofExports [⟨"g", 1, true⟩]) (NameEvent.ofUnit "main" bad)
      ⟨.unknown .function "g", ⟨10, 17, 2, 3⟩⟩ := by
  obtain ⟨good, hgood, hlowered⟩ := exists_ok_of_map (b := true)
    (x := parse "fn f(g)\n  g + pi()\nf(1)\n") (f := fun tree =>
      (lowerUnit Options.default [⟨"g", 1, true⟩] "main" (some tree)).toOption.isSome)
    (by decide +kernel)
  obtain ⟨bad, hbad, hrefused⟩ := exists_ok_of_map
    (b := Except.error ⟨.unknown .function "g", ⟨10, 17, 2, 3⟩⟩)
    (x := parse "fn f(g)\n  g(1, x)\n") (f := fun tree =>
      (lowerUnit Options.default [⟨"g", 1, true⟩] "main" (some tree)).map fun _ => ())
    (by decide +kernel)
  refine ⟨good, bad, hgood, hbad, (lowerUnit_iff_wellScoped Options.default hgood (by decide)).1.1 ?_,
    ((lowerUnit_iff_wellScoped Options.default hbad (by decide)).2.1 _).1 ?_⟩
  · cases hlower : lowerUnit Options.default [⟨"g", 1, true⟩] "main" (some good) with
    | ok emission => exact ⟨emission, rfl⟩
    | error e =>
      rw [hlower] at hlowered
      cases hlowered
  · cases hlower : lowerUnit Options.default [⟨"g", 1, true⟩] "main" (some bad) with
    | ok emission =>
      rw [hlower] at hrefused
      cases hrefused
    | error e =>
      rw [hlower] at hrefused
      exact congrArg Except.error (Except.error.inj hrefused)

end Abacus.Lowering
