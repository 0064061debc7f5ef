import Abacus.Proofs.Pairing.Functions
import Abacus.Proofs.Source.Parsing

/-!
# Units one by one and all at once

Texts that consist of definitions can be compiled one after the other in a session, or all together
as one text. Both give the same program, or fail with the same message at the same text.

* `Session.compileUnits` — units one after the other, up to the first that does not compile;
* `Session.Keeps` — what a session has in common with a run over one long text;
* `Session.lowerUnit_agree`, `Session.lowerUnits_agree` — one unit, and any number of them;
* `Session.incremental_iff_batch` — a session and one compilation of the whole text.
-/

namespace Abacus

open Abacus.Lowering (Options Export Emission Progress Agree LoweringError SymbolTable lowerItem
  lowerUnit importExports)
open Abacus.Machine (Program)
open Abacus.Tree (ItemAlike)

/-! ## Units of definitions -/

theorem Tree.ItemAlike.isDefinition {t t' : Tree} (h : ItemAlike t t') :
    Meaning.isDefinition t' = Meaning.isDefinition t := by
  cases h with
  | fnDef => rfl
  | statement h =>
    cases h with
    | expression h => cases h <;> rfl
    | _ => rfl

theorem definitions_of_alike {items items' : List Tree} (h : List.Forall₂ ItemAlike items items')
    (hdefinitions : ∀ t ∈ items, Meaning.isDefinition t = true) :
    ∀ t ∈ items', Meaning.isDefinition t = true := by
  induction h with
  | nil => simp
  | cons hitem _ ih =>
    rw [List.forall_mem_cons] at hdefinitions ⊢
    exact ⟨hitem.isDefinition.trans hdefinitions.1, ih hdefinitions.2⟩

/-- A unit of definitions is lowered by lowering its items. -/
theorem lowerUnit_of_definitions {options : Options} {exports : List Export} {symbols : SymbolTable}
    {unitName : String} {tree : Tree} (himport : importExports exports = .ok symbols)
    (hdefinitions : ∀ t ∈ tree.items, Meaning.isDefinition t = true) :
    lowerUnit options exports unitName (some tree) =
      (tree.items.foldlM (lowerItem options) ⟨symbols, #[], #[], #[]⟩) >>= fun p =>
        .ok ⟨⟨p.functions.toList⟩, p.exports.toList, none⟩ := by
  have htable : (Progress.mk symbols #[] #[] #[]).symbols.Tabulates exports :=
    Lowering.importExports_tabulates himport
  unfold lowerUnit
  rw [himport]
  show (tree.items.foldlM (lowerItem options) ⟨symbols, #[], #[], #[]⟩ >>= fun p => _) = _
  refine Lowering.except_bind_congr fun p hp => ?_
  obtain ⟨-, -, -, -, -, hstatements, -⟩ := Lowering.lowerItems_lowers htable hp
  have hempty : p.statements.isEmpty = true := by
    have hnone : tree.items.filter (fun item => !Meaning.isDefinition item) = [] := by
      simpa using hdefinitions
    simpa [hnone] using hstatements
  rw [if_pos hempty]
  rfl

namespace Session

/-- Compiles and links units one after the other. The first that does not compile stops this. -/
def compileUnits (s : Session) (sources : List String) : Except (List Diagnostic) Session :=
  sources.foldlM (fun s source => return (← s.compileUnit source).2) s

/-- Lowers and links units one after the other. The first that cannot be lowered stops this. -/
def lowerUnits (s : Session) (trees : List Tree) : Except LoweringError Session :=
  trees.foldlM (fun s tree =>
    return s.accept (← lowerUnit s.options s.exports s.unitName (some tree))) s

variable {s : Session} {p : Progress} {options : Options}

theorem compileTree_eq (options : Options) (exports : List Export) (unitName : String)
    (tree : Tree) : compileTree options exports unitName tree =
      (lowerUnit options exports unitName (some tree)).mapError fun e => [e.diagnostic] := by
  unfold compileTree
  cases lowerUnit options exports unitName (some tree) <;> rfl

/-- Units that can be parsed are compiled by lowering them. -/
theorem compileUnits_eq {units : List (String × Tree)} (h : ∀ u ∈ units, parse u.1 = .ok u.2)
    (s : Session) : s.compileUnits (units.map Prod.fst) =
      (s.lowerUnits (units.map Prod.snd)).mapError fun e => [e.diagnostic] := by
  induction units generalizing s with
  | nil => rfl
  | cons u units ih =>
    rw [List.forall_mem_cons] at h
    have hunit : s.compileUnit u.1 = (lowerUnit s.options s.exports s.unitName (some u.2)).mapError
        (fun e => [e.diagnostic]) >>= fun emission => .ok (emission, s.accept emission) := by
      unfold compileUnit
      rw [h.1, ← compileTree_eq]
      rfl
    unfold compileUnits lowerUnits
    rw [List.map_cons, List.map_cons, List.foldlM_cons, List.foldlM_cons, hunit]
    cases lowerUnit s.options s.exports s.unitName (some u.2) with
    | error e => rfl
    | ok emission => exact ih h.2 _

/-! ## In a session and in one long text -/

/-- The session has linked the functions of a run over one long text, and knows the same names. -/
structure Keeps (s : Session) (p : Progress) : Prop where
  program : s.program = Program.ofModule ⟨p.functions.toList⟩
  table : p.symbols.Tabulates s.exports

/-- A unit of definitions, in a session and in one long text. -/
theorem lowerUnit_agree (h : s.Keeps p) {tree : Tree} {items' : List Tree}
    (hitems : List.Forall₂ ItemAlike tree.items items')
    (hdefinitions : ∀ t ∈ tree.items, Meaning.isDefinition t = true) :
    Agree (fun emission p' => (s.accept emission).Keeps p')
      (lowerUnit s.options s.exports s.unitName (some tree))
      (items'.foldlM (lowerItem s.options) p) := by
  obtain ⟨symbols, himport⟩ := Lowering.importExports_total h.table.distinct
  have hstart : Progress.Alongside p s.exports ⟨symbols, #[], #[], #[]⟩ p :=
    ⟨by simp, by simp, by simp, by simpa using Lowering.importExports_tabulates himport,
      by simpa using h.table⟩
  rw [lowerUnit_of_definitions himport hdefinitions, ← bind_pure (items'.foldlM _ p)]
  have hsame := Tree.map_unplaced_of_alike hitems
  refine (Lowering.lowerItems_agree hsame hstart).bind fun q q' hq => .ok ⟨?_, hq.table'⟩
  show s.program.link _ = _
  rw [h.program, hq.functions]
  exact List.foldl_append.symm

/-- Units of definitions, in a session and in one long text. -/
theorem lowerUnits_agree (h : s.Keeps p) {trees : List Tree} {items' : List Tree}
    (hitems : List.Forall₂ ItemAlike (trees.flatMap Tree.items) items')
    (hdefinitions : ∀ tree ∈ trees, ∀ t ∈ tree.items, Meaning.isDefinition t = true) :
    Agree Keeps (s.lowerUnits trees) (items'.foldlM (lowerItem s.options) p) := by
  induction trees generalizing s p items' with
  | nil =>
    cases hitems
    exact .ok h
  | cons tree trees ih =>
    rw [List.forall_mem_cons] at hdefinitions
    rw [List.flatMap_cons] at hitems
    have hfront := (List.forall₂_take_append _ _ _ hitems.flip).flip
    have hback := (List.forall₂_drop_append _ _ _ hitems.flip).flip
    unfold lowerUnits
    rw [List.foldlM_cons, ← List.take_append_drop tree.items.length items', List.foldlM_append,
      bind_assoc]
    exact (lowerUnit_agree h hfront hdefinitions.1).bind fun _ _ hs => ih hs hback hdefinitions.2

/-- Units of definitions in a new session, and one unit with the same definitions. -/
theorem lowerUnits_agree_unit (options : Options) (fuel : Nat) (unitName : String)
    {trees : List Tree} {tree : Tree}
    (hitems : List.Forall₂ ItemAlike (trees.flatMap Tree.items) tree.items)
    (hdefinitions : ∀ tree ∈ trees, ∀ t ∈ tree.items, Meaning.isDefinition t = true) :
    Agree (fun s emission => s.program = Program.ofModule emission.module)
      ((start options fuel).lowerUnits trees) (lowerUnit options [] unitName (some tree)) := by
  have hdefinitions' := definitions_of_alike hitems (List.forall_mem_flatMap.2 hdefinitions)
  have hkeeps : (start options fuel).Keeps ⟨.empty, #[], #[], #[]⟩ :=
    ⟨rfl, SymbolTable.tabulates_empty⟩
  rw [lowerUnit_of_definitions rfl hdefinitions', ← bind_pure (lowerUnits _ trees)]
  exact (lowerUnits_agree hkeeps hitems hdefinitions).bind fun s p h => .ok h.program

/-! ## Messages -/

/-- What is said of an error depends on its cause only. -/
theorem said_of_cause {e e' : LoweringError} (h : e.cause = e'.cause) :
    e'.diagnostic.message = e.diagnostic.message ∧ e'.diagnostic.notes = e.diagnostic.notes ∧
      e'.diagnostic.help? = e.diagnostic.help? := by
  obtain ⟨cause, span⟩ := e
  obtain ⟨cause', span'⟩ := e'
  obtain rfl : cause = cause' := h
  cases cause with
  | unknown kind => cases kind <;> exact ⟨rfl, rfl, rfl⟩
  | _ => exact ⟨rfl, rfl, rfl⟩

/-- A text that can be parsed is not refused because of a defect. -/
theorem cause_ne_internal {source unitName : String} {tree : Tree} {e : LoweringError}
    (hparse : parse source = .ok tree)
    (h : lowerUnit options [] unitName (some tree) = .error e) (d : Lowering.Defect) :
    e.cause ≠ .internal d := by
  have hexports : (([] : List Export).map Export.name).Nodup := List.nodup_nil
  have hviolation := ((Lowering.lowerUnit_wellScoped options unitName hexports
    (parse_isItem hparse)).2 e).1 h
  rcases hviolation.cause with ⟨_, hc⟩ | ⟨_, _, hc⟩ | ⟨_, _, _, hc⟩ <;> rw [hc] <;> simp

/-- Texts that can be parsed, with their trees. -/
theorem exists_units {holds : Tree → Prop} {sources : List String}
    (h : ∀ source ∈ sources, ∃ tree, parse source = .ok tree ∧ holds tree) :
    ∃ units : List (String × Tree), units.map Prod.fst = sources ∧
      ∀ u ∈ units, parse u.1 = .ok u.2 ∧ holds u.2 := by
  induction sources with
  | nil => exact ⟨[], rfl, by simp⟩
  | cons source sources ih =>
    rw [List.forall_mem_cons] at h
    obtain ⟨tree, htree⟩ := h.1
    obtain ⟨units, rfl, hunits⟩ := ih h.2
    exact ⟨(source, tree) :: units, rfl, List.forall_mem_cons.2 ⟨htree, hunits⟩⟩

/-- Texts of definitions compile one by one if and only if they compile as one text, and then to the
same program; otherwise both fail for the same cause. -/
theorem compileUnits_agree (options : Options) (fuel : Nat) {sources : List String}
    (hsources : ∀ source ∈ sources, ∃ tree, parse source = .ok tree ∧
      ∀ t ∈ tree.items, Meaning.isDefinition t = true) :
    (∃ s m, (start options fuel).compileUnits sources = .ok s ∧
        compile options ("\n".intercalate sources) = .ok m ∧ s.program = Program.ofModule m) ∨
      ∃ e e' : LoweringError, (start options fuel).compileUnits sources = .error [e.diagnostic] ∧
        compile options ("\n".intercalate sources) = .error [e'.diagnostic] ∧ e.cause = e'.cause := by
  obtain ⟨units, rfl, hunits⟩ := exists_units hsources
  obtain ⟨tree, hparse, hitems⟩ := parse_intercalate fun u hu => ⟨(hunits u hu).1, fun t ht h => by
    have hdefinition := (hunits u hu).2 t ht
    rw [Lowering.isDefinition_of_isStatement h] at hdefinition
    cases hdefinition⟩
  have hdefinitions : ∀ t ∈ units.map Prod.snd, ∀ item ∈ t.items,
      Meaning.isDefinition item = true := by
    intro t ht
    obtain ⟨u, hu, rfl⟩ := List.mem_map.1 ht
    exact (hunits u hu).2
  have hagree := lowerUnits_agree_unit options fuel Lowering.defaultUnitName
    (List.flatMap_map .. ▸ hitems) hdefinitions
  have hcompile : compile options ("\n".intercalate (units.map Prod.fst)) =
      (lowerUnit options [] Lowering.defaultUnitName (some tree)).mapError
        (fun e => [e.diagnostic]) >>= fun emission => .ok emission.module := by
    unfold compile
    rw [hparse, ← compileTree_eq]
    rfl
  rw [compileUnits_eq fun u hu => (hunits u hu).1, hcompile]
  rcases hagree.ok_or_error fun e' he' => cause_ne_internal hparse he' with
    ⟨s, emission, hs, hemission, hprogram⟩ | ⟨e, e', he, he', hcause⟩
  · rw [hs, hemission]
    exact .inl ⟨s, emission.module, rfl, rfl, hprogram⟩
  · rw [he, he']
    exact .inr ⟨e, e', rfl, rfl, hcause⟩

/-- For every list of texts that can be parsed and consist of definitions, and all options: they
compile one after the other in a new session if and only if they compile as one text, with a line
break between any two of them. Then the linked program is that of the module of the one text, with the
same functions in the same order, so every call of any function comes to the same on both. If a text
does not compile after those before it, these texts together with it fail as one text, and the same
is said of them. -/
theorem incremental_iff_batch (options : Options) (fuel : Nat) {sources : List String}
    (hsources : ∀ source ∈ sources, ∃ tree, parse source = .ok tree ∧
      ∀ t ∈ tree.items, Meaning.isDefinition t = true) :
    ((∃ s, (start options fuel).compileUnits sources = .ok s) ↔
        ∃ m, compile options ("\n".intercalate sources) = .ok m) ∧
      (∀ s m, (start options fuel).compileUnits sources = .ok s →
        compile options ("\n".intercalate sources) = .ok m →
          s.program.functions = (Program.ofModule m).functions ∧
            ∀ name arguments fuel, s.program.run name arguments fuel =
              (Program.ofModule m).run name arguments fuel) ∧
      ∀ front source back s complaints, sources = front ++ source :: back →
        (start options fuel).compileUnits front = .ok s →
        s.compileUnit source = .error complaints →
          ∃ d d', complaints = [d] ∧
            compile options ("\n".intercalate (front ++ [source])) = .error [d'] ∧
            d'.message = d.message ∧ d'.notes = d.notes ∧ d'.help? = d.help? := by
  refine ⟨?_, ?_, ?_⟩
  · rcases compileUnits_agree options fuel hsources with
      ⟨s, m, hs, hm, -⟩ | ⟨e, e', he, he', -⟩
    · exact ⟨fun _ => ⟨m, hm⟩, fun _ => ⟨s, hs⟩⟩
    · rw [he, he']
      simp
  · intro s m hs hm
    rcases compileUnits_agree options fuel hsources with
      ⟨s', m', hs', hm', hprogram⟩ | ⟨e, e', he, -, -⟩
    · rw [hs] at hs'
      rw [hm] at hm'
      cases hs'
      cases hm'
      rw [hprogram]
      exact ⟨rfl, fun _ _ _ => rfl⟩
    · rw [hs] at he
      cases he
  · rintro front source back s complaints rfl hfront hsource
    -- The texts up to the one that does not compile are such a list, too.
    have hshort : ∀ source' ∈ front ++ [source], ∃ tree, parse source' = .ok tree ∧
        ∀ t ∈ tree.items, Meaning.isDefinition t = true :=
      fun source' h => hsources source' (by simp only [List.mem_append, List.mem_cons] at h ⊢; grind)
    have hfails : (start options fuel).compileUnits (front ++ [source]) = .error complaints := by
      unfold compileUnits at hfront ⊢
      rw [List.foldlM_append, hfront]
      show (s.compileUnit source >>= _) >>= _ = _
      rw [hsource]
      rfl
    rcases compileUnits_agree options fuel hshort with
      ⟨s', m, hs', -, -⟩ | ⟨e, e', he, he', hcause⟩
    · rw [hfails] at hs'
      cases hs'
    · rw [hfails] at he
      cases he
      exact ⟨_, _, rfl, he', said_of_cause hcause⟩

/-- A function that may raise a fault, one that calls it with a handler, and one that calls a function
that there is not. The first two link to the same program in both ways; the third is refused with the
same message in both ways. -/
theorem incremental_of_division :
    (∃ s m, (start Options.default 0).compileUnits ["fn f(a)\n  1 / a\n", "fn g()\n  f(0)"] = .ok s ∧
      compile Options.default "fn f(a)\n  1 / a\n\nfn g()\n  f(0)" = .ok m ∧
      s.program.functions = (Program.ofModule m).functions) ∧
    ∃ d', compile Options.default "fn f(a)\n  1 / a\n\nfn g()\n  f(0)\nfn h()\n  k()\n" =
      .error [d'] ∧ d'.message = "unknown function `k`" := by
  have hsources : ∀ source ∈ ["fn f(a)\n  1 / a\n", "fn g()\n  f(0)", "fn h()\n  k()\n"],
      ∃ tree, parse source = .ok tree ∧ ∀ t ∈ tree.items, Meaning.isDefinition t = true := by
    intro source hsource
    have hparse : ((parse source).toOption.map fun tree => tree.items.all Meaning.isDefinition) =
        some true := by
      revert source
      decide +kernel
    obtain ⟨tree, htree, hall⟩ := Lowering.exists_ok_of_map hparse
    exact ⟨tree, htree, by simpa using hall⟩
  obtain ⟨s, hs, hrefused⟩ := Lowering.exists_ok_of_map (show
      (((start Options.default 0).compileUnits ["fn f(a)\n  1 / a\n", "fn g()\n  f(0)"]).toOption.map
        fun s => match s.compileUnit "fn h()\n  k()\n" with
          | .ok _ => []
          | .error complaints => complaints.map Diagnostic.message) = some ["unknown function `k`"] by
    decide +kernel)
  constructor
  · obtain ⟨hboth, hsame, -⟩ := incremental_iff_batch Options.default 0
      fun source h => hsources source (List.mem_of_mem_take (i := 2) h)
    obtain ⟨m, hm⟩ := hboth.1 ⟨s, hs⟩
    exact ⟨s, m, hs, hm, (hsame s m hs hm).1⟩
  · cases hunit : s.compileUnit "fn h()\n  k()\n" with
    | ok r =>
      rw [hunit] at hrefused
      cases hrefused
    | error complaints =>
      rw [hunit] at hrefused
      obtain ⟨-, -, hfirst⟩ := incremental_iff_batch Options.default 0 hsources
      obtain ⟨d, d', rfl, hcompile, hmessage, -⟩ := hfirst _ _ [] s complaints rfl hs hunit
      exact ⟨d', hcompile, hmessage.trans (List.singleton_inj.1 hrefused)⟩

end Session

end Abacus
