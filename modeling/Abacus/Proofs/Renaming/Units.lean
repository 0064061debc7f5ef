import Abacus.Proofs.Naming.UnitName
import Abacus.Proofs.Renaming.Bodies
import Mathlib.Logic.Equiv.Basic

/-!
# Units under other names

What a unit is lowered to shows the names of functions and no others. Under other names for everything
else, the unit gives the same functions and exports, or fails at the same place and for the same cause, in
which the names are the other ones.

* `publicNames` — the names that are seen outside of bodies;
* `lowerFunction_rename`, `lowerStatements_rename` — functions;
* `lowerUnit_rename` — units.
-/

namespace Abacus.Lowering

open Abacus.Flow (Value Block Function)

variable {ρ : String → String} {α β γ : Type}

/-! ## Functions -/

section

variable (hρ : Renaming ρ)
include hρ

theorem openFunction_rename (symbols : SymbolTable) {name : String} (hname : ρ name = name)
    (arity : Nat) : Translated ρ (State.rename ρ) (openFunction symbols name arity)
      (openFunction (symbols.rename ρ) name arity) := by
  have hdefine := symbols.define_rename hρ name (.function arity false)
  rw [hname] at hdefine
  refine hdefine.bind fun ⟨id, opened⟩ _ => ?_
  refine (Lower.translates_onDraft (Drafting.clean_sealBlock _) _).bind fun ⟨⟨⟩, s⟩ _ => ?_
  exact translated_ok s

omit hρ in
/-- Finishing a draft says nothing about names of variables. -/
theorem finishDraft_rename (verify : Bool) (draft : Draft) :
    Translated ρ id (finishDraft verify draft) (finishDraft verify draft) := by
  refine Translated.bind (f := id) (translated_self fun e he => ?_) fun _ _ => ?_
  · unfold Variables.finish at he
    split at he <;> cases he
    rfl
  · dsimp only
    split
    · split
      · exact translated_error _
      · exact translated_ok _
    · exact translated_ok _

theorem closeFunction_rename (options : Options) {name : String} (hname : ρ name = name)
    (arity : Nat) (result? : Option Value) (s : State) :
    Translated ρ (Prod.map id (SymbolTable.rename ρ)) (closeFunction options name arity result? s)
      (closeFunction options name arity result? (s.rename ρ)) := by
  refine (Lower.translates_onDraft (clean_endBody result?) s).bind fun ⟨⟨⟩, t⟩ _ => ?_
  refine (finishDraft_rename options.verify t.draft).bind fun f _ => ?_
  -- The fault flag is set under the name of the function, which has stayed.
  have hredefine := t.symbols.redefine_rename hρ name (.function arity true)
  rw [hname] at hredefine
  show Translated _ _ (if t.mayFault then _ else _) (if t.mayFault then _ else _)
  split
  · exact hredefine.bind fun ⟨id, symbols⟩ _ => translated_ok (f, symbols)
  · exact translated_ok (f, t.symbols)

theorem Lower.translates_parameters (span : Span) (names : List String) (index : Nat) :
    Translates ρ (parameters span names index) (parameters span (names.map ρ) index) := by
  induction names generalizing index with
  | nil => exact translates_pure ()
  | cons name names ih =>
    refine ((translates_define hρ name .var).located span).bind fun x => ?_
    refine (translates_onDraft (Drafting.clean_note _)).bind fun _ => ?_
    exact (translates_onDraft (Drafting.clean_note _)).bind fun _ => ih (index + 1)

/-- A definition gives the same function and the same export. -/
theorem lowerFunction_rename (options : Options) (symbols : SymbolTable) (span : Span)
    {name : String} (hname : ρ name = name) (names : List String) {body : Tree}
    (hcalls : Lower.Keeps ρ (NameEvent.ofBody body)) :
    Translated ρ (Prod.map id (Prod.map id (SymbolTable.rename ρ)))
      (lowerFunction options symbols span name names body)
      (lowerFunction options (symbols.rename ρ) span name (names.map ρ) (body.rename ρ)) := by
  unfold lowerFunction
  dsimp only
  rw [List.length_map]
  refine ((openFunction_rename hρ symbols hname names.length).locate span).bind fun start _ => ?_
  have hbody := (Lower.translates_parameters hρ span names 0).bind fun _ =>
    Lower.translates_items hρ options.fault body hcalls
  refine (hbody.inScope start).bind fun ⟨⟨⟩, s⟩ _ => ?_
  have hclose := closeFunction_rename hρ options hname names.length none s
  refine (hclose.locate span).bind fun ⟨f, closed⟩ _ => ?_
  exact translated_ok (f, Export.mk name names.length s.mayFault, closed)

omit hρ in
theorem integerResult_rename (last? : Option Value) (s : State) :
    Translated ρ (Prod.map id (State.rename ρ)) (integerResult last? s)
      (integerResult last? (s.rename ρ)) := by
  cases last? with
  | none => exact translated_ok (none, s)
  | some v =>
    refine (Lower.translates_coerce v .int s).bind fun ⟨v', s'⟩ _ => ?_
    exact translated_ok (some v', s')

/-- Top-level statements give the same function. -/
theorem lowerStatements_rename (options : Options) (symbols : SymbolTable) {name : String}
    (hname : ρ name = name) {items : List Tree}
    (hcalls : Lower.Keeps ρ (NameEvent.ofStatements items)) :
    Translated ρ id (lowerStatements options symbols name items)
      (lowerStatements options (symbols.rename ρ) name (items.map (Tree.rename ρ))) := by
  have hspan : ((items.map (Tree.rename ρ)).head?.map Tree.span).getD Span.none =
      (items.head?.map Tree.span).getD Span.none := by
    cases items <;> simp
  rw [lowerStatements_eq, lowerStatements_eq, hspan]
  refine ((openFunction_rename hρ symbols hname 0).locate _).bind fun start _ => ?_
  have hbody := Lower.translates_statementsValue hρ options.fault items hcalls
  refine (hbody.inScope start).bind fun ⟨last?, s⟩ _ => ?_
  refine (integerResult_rename last? s).bind fun ⟨r, s'⟩ _ => ?_
  exact (closeFunction_rename hρ options hname 0 r s').bind fun ⟨f, _⟩ _ => translated_ok f

/-! ## Items, one after the other -/

omit hρ in
theorem Translated.foldlM {step : β → α → Except LoweringError β}
    {step' : γ → α → Except LoweringError γ} {f : β → γ} (change : α → α) {l : List α}
    (h : ∀ b, ∀ a ∈ l, Translated ρ f (step b a) (step' (f b) (change a))) (b : β) :
    Translated ρ f (l.foldlM step b) ((l.map change).foldlM step' (f b)) := by
  induction l generalizing b with
  | nil => exact translated_ok b
  | cons a rest ih =>
    rw [List.map_cons, List.foldlM_cons, List.foldlM_cons]
    refine (h b a List.mem_cons_self).bind fun b' _ => ?_
    exact ih (fun b a ha => h b a (List.mem_cons_of_mem _ ha)) b'

theorem importExports_rename {exports : List Export} (hnames : ∀ e ∈ exports, ρ e.name = e.name) :
    Translated ρ (SymbolTable.rename ρ) (importExports exports) (importExports exports) := by
  have hfold : Translated ρ (SymbolTable.rename ρ) (importExports exports)
      (importExports (exports.map id)) := by
    refine Translated.foldlM id (fun symbols e he => ?_) SymbolTable.empty
    have hdefine := symbols.define_rename hρ e.name e.binding
    rw [hnames e he] at hdefine
    exact hdefine.bind fun ⟨id, symbols'⟩ _ => translated_ok symbols'
  rwa [List.map_id] at hfold

end

/-- What has been made of the items so far is the same. The names in scope are other ones, and so are
those in the statements that are kept for later. -/
def Progress.rename (ρ : String → String) (p : Progress) : Progress :=
  { p with symbols := p.symbols.rename ρ, statements := p.statements.map (Tree.rename ρ) }

theorem isDefinition_rename (t : Tree) :
    Meaning.isDefinition (t.rename ρ) = Meaning.isDefinition t := by
  obtain ⟨span, shape⟩ := t
  cases shape with
  | ifElse _ _ elseBody => cases elseBody <;> rfl
  | _ => rfl

/-- An item under other names that defines and calls the same functions. -/
theorem lowerItem_rename (hρ : Renaming ρ) (options : Options) (progress : Progress) {item : Tree}
    (hname : ∀ name ∈ item.functionName?, ρ name = name)
    (hcalls : Lower.Keeps ρ (NameEvent.ofDefinition item)) :
    Translated ρ (Progress.rename ρ) (lowerItem options progress item)
      (lowerItem options (progress.rename ρ) (item.rename ρ)) := by
  cases hdefinition : Meaning.isDefinition item with
  | true =>
    obtain ⟨span, name, names, body, rfl⟩ := exists_fnDef_of_isDefinition hdefinition
    have hname : ρ name = name := hname name rfl
    have hbody := Lower.keeps_append.1 (Lower.keeps_enclosed.1 (Lower.keeps_define.1 hcalls))
    have hlower := lowerFunction_rename hρ options progress.symbols span hname names hbody.2
    rw [Tree.rename, hname]
    refine hlower.bind fun ⟨f, entry, symbols⟩ _ => translated_ok { progress with
      symbols, functions := progress.functions.push f, exports := progress.exports.push entry }
  | false =>
    have hdefinition' : Meaning.isDefinition (item.rename ρ) = false := by
      rwa [isDefinition_rename]
    have hpush : (progress.statements.push item).map (Tree.rename ρ) =
        (progress.statements.map (Tree.rename ρ)).push (item.rename ρ) := Array.map_push
    rw [(lowerItem_of_statement hdefinition progress).1,
      (lowerItem_of_statement hdefinition' (progress.rename ρ)).1]
    show Translated _ _ _ (.ok { progress.rename ρ with
      statements := (progress.statements.map (Tree.rename ρ)).push (item.rename ρ) })
    rw [← hpush]
    exact translated_ok { progress with statements := progress.statements.push item }

/-! ## Units -/

/-- The names that are seen outside of bodies: those of the circle constant, of the unit function, of the
functions of earlier units, and of the functions that the unit defines and calls. -/
def publicNames (exports : List Export) (unitName : String) (tree? : Option Tree) : List String :=
  piName :: unitName :: exports.map Export.name ++ tree?.toList.flatMap fun tree =>
    tree.functionNames ++ (NameEvent.ofText tree).filterMap NameEvent.callee?

/-- What holds of the names that a unit calls holds of those that its parts call. -/
theorem keeps_ofText {tree : Tree} (h : Lower.Keeps ρ (NameEvent.ofText tree)) :
    (∀ item ∈ tree.items, Lower.Keeps ρ (NameEvent.ofDefinition item)) ∧
      Lower.Keeps ρ (NameEvent.ofStatements
        (tree.items.filter fun item => !Meaning.isDefinition item)) := by
  obtain ⟨hdefinitions, hstatements⟩ := Lower.keeps_append.1 h
  refine ⟨fun item hitem name hname => hdefinitions name ?_, hstatements⟩
  rw [List.filterMap_flatMap]
  exact List.mem_flatMap.2 ⟨item, hitem, hname⟩

/-- A unit that has a tree. -/
theorem lowerTree_rename (hρ : Renaming ρ) (options : Options) {exports : List Export}
    {unitName : String} {tree : Tree} (hunit : ρ unitName = unitName)
    (hexports : ∀ e ∈ exports, ρ e.name = e.name) (hnames : ∀ name ∈ tree.functionNames, ρ name = name)
    (hcalls : Lower.Keeps ρ (NameEvent.ofText tree)) :
    Translated ρ id (lowerUnit options exports unitName (some tree))
      (lowerUnit options exports unitName (some (tree.rename ρ))) := by
  obtain ⟨hdefinitions, hstatements⟩ := keeps_ofText hcalls
  have hitems : ∀ progress, ∀ item ∈ tree.items, Translated ρ (Progress.rename ρ)
      (lowerItem options progress item)
      (lowerItem options (progress.rename ρ) (item.rename ρ)) :=
    fun progress item hitem => lowerItem_rename hρ options progress
      (fun name hname => hnames name (List.mem_filterMap.2 ⟨item, hitem, hname⟩))
      (hdefinitions item hitem)
  unfold lowerUnit
  refine (importExports_rename hρ hexports).bind fun symbols himport => ?_
  dsimp only
  rw [Tree.items_rename]
  have hstart : Progress.rename ρ ⟨symbols, #[], #[], #[]⟩ = ⟨symbols.rename ρ, #[], #[], #[]⟩ := by
    simp [Progress.rename]
  have hprogress := Translated.foldlM (Tree.rename ρ) hitems ⟨symbols, #[], #[], #[]⟩
  rw [hstart] at hprogress
  refine hprogress.bind fun progress hfold => ?_
  -- What has been kept for later are the statements of the tree, and what these call has kept its name.
  obtain ⟨-, -, -, -, -, hkept, -⟩ := lowerItems_lowers (importExports_tabulates himport) hfold
  have hempty : (progress.rename ρ).statements.isEmpty = progress.statements.isEmpty := by
    simp [Progress.rename, Array.isEmpty]
  have hlist : (progress.rename ρ).statements.toList =
      progress.statements.toList.map (Tree.rename ρ) := Array.toList_map
  rw [hempty, hlist]
  split
  · exact translated_ok _
  · rw [List.nil_append] at hkept
    rw [← hkept] at hstatements
    have hlower := lowerStatements_rename hρ options progress.symbols hunit hstatements
    exact hlower.bind fun f _ => translated_ok _

/-- The names of variables do not matter. Under other names for what is not seen outside of bodies, a unit
gives the same functions, exports and unit function, or the same error about the other names. -/
theorem lowerUnit_rename {ρ : String → String} (hρ : Function.Injective ρ) {exports : List Export}
    {unitName : String} {tree? : Option Tree}
    (hpublic : ∀ name ∈ publicNames exports unitName tree?, ρ name = name) (options : Options) :
    lowerUnit options exports unitName (tree?.map (Tree.rename ρ)) =
      (lowerUnit options exports unitName tree?).mapError (LoweringError.rename ρ) := by
  have hrenaming : Renaming ρ := ⟨hρ, hpublic _ List.mem_cons_self⟩
  obtain ⟨hunit, hexports⟩ : ρ unitName = unitName ∧ ∀ e ∈ exports, ρ e.name = e.name := by
    constructor
    · exact hpublic _ (by simp [publicNames])
    · exact fun e he => hpublic _ (by simp [publicNames]; grind)
  have hlower : Translated ρ id (lowerUnit options exports unitName tree?)
      (lowerUnit options exports unitName (tree?.map (Tree.rename ρ))) := by
    cases tree? with
    | none =>
      exact (importExports_rename hrenaming hexports).bind fun _ _ => translated_error _
    | some tree =>
      have htext : ∀ name ∈ tree.functionNames ++
          (NameEvent.ofText tree).filterMap NameEvent.callee?, ρ name = name :=
        fun name hname => hpublic name (by simp [publicNames]; grind)
      obtain ⟨hnames, hcalls⟩ := List.forall_mem_append.1 htext
      exact lowerTree_rename hrenaming options hunit hexports hnames hcalls
  rw [hlower]
  cases lowerUnit options exports unitName tree? <;> rfl

/-- A parameter and a variable exchange their names. -/
theorem lowerUnit_rename_swap : ∃ tree emission,
    tree.sexpr = "(program (fn f (a) (list (return (+ a 1)))) (let c (call f 2)) c)" ∧
      (tree.rename (Equiv.swap "a" "c")).sexpr =
        "(program (fn f (c) (list (return (+ c 1)))) (let a (call f 2)) a)" ∧
      lowerUnit .default [] defaultUnitName (some tree) = .ok emission ∧
      lowerUnit .default [] defaultUnitName (some (tree.rename (Equiv.swap "a" "c"))) = .ok emission := by
  obtain ⟨tree, -, htree⟩ := exists_ok_of_map (show
      ((parse "fn f(a)\n  return a + 1\n\nlet c = f(2)\nc").toOption.map fun tree =>
        (tree.sexpr, (tree.rename (Equiv.swap "a" "c")).sexpr,
          publicNames [] defaultUnitName (some tree),
          (lowerUnit .default [] defaultUnitName (some tree)).toBool)) =
        some ("(program (fn f (a) (list (return (+ a 1)))) (let c (call f 2)) c)",
          "(program (fn f (c) (list (return (+ c 1)))) (let a (call f 2)) a)",
          ["pi", "__unit0", "f", "f"], true) by decide +kernel)
  simp only [Prod.mk.injEq] at htree
  obtain ⟨hsexpr, hrenamed, hpublic, hlowers⟩ := htree
  have hsame := lowerUnit_rename (Equiv.swap "a" "c").injective
    (by rw [hpublic]; decide : ∀ name ∈ publicNames [] defaultUnitName (some tree), _) .default
  cases hlower : lowerUnit .default [] defaultUnitName (some tree) with
  | error e =>
    rw [hlower] at hlowers
    cases hlowers
  | ok emission =>
    rw [hlower] at hsame
    exact ⟨tree, emission, hsexpr, hrenamed, hlower, hsame⟩

end Abacus.Lowering
