import Mathlib.Data.List.Forall2
import Abacus.Proofs.Lowering.Merges

/-!
# The drafts of a unit

The lowering of a function comes to its end with a draft. Its graph is the function, and the draft still
tells for which variables phis have been made. With it what is known of the phis of one function holds of
all functions of a unit.

* `Routine.EndsIn` — a definition, or the top-level statements, end in a draft;
* `Routine.EndsIn.made`, `Routine.EndsIn.run` — this is the draft of a plan, and comes of a run;
* `lowerUnit_drafted` — the functions of a unit are those of such drafts;
* `phis_at_merges` — where their phis stand.
-/

namespace Abacus.Lowering

open Abacus.Flow (Value Block Ty Inst Terminator Builder Function)

namespace Plan

variable {config : FaultConfig} {symbols symbols' : SymbolTable} {routine : Routine} {d : Draft}

/-- The draft in which the lowering of a function ends, where `symbols` are in scope before. -/
inductive Routine.EndsIn (config : FaultConfig) (symbols : SymbolTable) : Routine → Draft → Prop
  | definition {span name parameters body start s s'} :
      openFunction symbols name parameters.length = .ok start →
      (Lower.inScope do
        Lower.parameters span parameters 0
        Lower.items config body : Lower Unit) start = .ok ((), s) →
      Lower.onDraft (endBody none) s = .ok ((), s') →
      EndsIn config symbols (.definition name parameters body) s'.draft
  | statements {name items start last? s r s₁ s'} :
      openFunction symbols name 0 = .ok start →
      Lower.inScope (Lower.statementsValue config items) start = .ok (last?, s) →
      integerResult last? s = .ok (r, s₁) → Lower.onDraft (endBody r) s₁ = .ok ((), s') →
      EndsIn config symbols (.statements name items) s'.draft

/-- The draft is that of the plan of the function. -/
theorem Routine.EndsIn.made (h : routine.EndsIn config symbols d) : ∃ id opened b closed ω,
    symbols.define routine.name (.function routine.arity false) = .ok (id, opened) ∧
      Made config opened routine b closed ω ∧ d = ω.record.draft := by
  cases h with
  | definition hopen hbody hend =>
    obtain ⟨id, opened, σ, hdefine, hopens, rfl⟩ := openFunction_ok hopen
    obtain ⟨σ₁, hdraft, b, hmade, -⟩ := Lower.leads_definition config _ _ hopens rfl () _ hbody
    obtain ⟨_, -, hready, -⟩ := hmade.advance
    obtain ⟨ω, hended, rfl⟩ := onDraft_endBody hdraft hready hend
    exact ⟨id, opened, b, _, ω, hdefine, .intro hmade hended, rfl⟩
  | statements hopen hitems hresult hend =>
    obtain ⟨id, opened, σ, hdefine, hopens, rfl⟩ := openFunction_ok hopen
    obtain ⟨σ₁, hdraft, b, symbols₁, hstatements, hpop, -⟩ :=
      Lower.leads_topLevel config _ hopens.begun.ready rfl _ _ hitems
    obtain ⟨σ₂, hresulting, rfl⟩ := integerResult_ok hdraft hresult
    have hmade : Body config opened (.statements _ _) b _ _ σ₂ :=
      .statements hopens hstatements hpop hresulting
    obtain ⟨_, -, hready, -⟩ := hmade.advance
    obtain ⟨ω, hended, rfl⟩ := onDraft_endBody (σ := σ₂) rfl hready hend
    exact ⟨id, opened, b, _, ω, hdefine, .intro hmade hended, rfl⟩

/-- A function that has been lowered comes of a run from the start. -/
theorem Made.run {b : Bool} {ω : Plan} (h : Made config symbols routine b symbols' ω) : ∃ ops,
    ω.record = (Recording.start routine.name (List.replicate routine.arity .int) .int).run ops :=
  h.extends'.run

theorem Routine.EndsIn.phisAtMerges (h : routine.EndsIn config symbols d) {known : List Export}
    (ht : symbols.Tabulates known) : PhisAtMerges d routine.branches := by
  obtain ⟨id, opened, b, closed, ω, hdefine, hmade, rfl⟩ := h.made
  have hopened := ht.define (e := ⟨routine.name, routine.arity, false⟩) hdefine
  obtain ⟨ops, hrun⟩ := hmade.run
  refine hmade.phisAtMerges hopened.global ?_
  rw [hrun]
  exact Recording.single_run (Recording.single_start ..) ops

end Plan

open Plan

/-! ## Units -/

/-- A function comes of the draft in which its lowering has ended, with the names of `known` in scope
before. -/
def Drafted (config : FaultConfig) (routine : Routine) (f : Function) : Prop :=
  ∃ known symbols d, SymbolTable.Tabulates symbols known ∧ routine.EndsIn config symbols d ∧
    f = d.builder.function

/-- The definition that an item is. -/
def definition? : Tree → Option Routine
  | .node _ (.fnDef name parameters body) => some (.definition name parameters body)
  | _ => none

/-- What the functions of a unit come of: its definitions, and its top-level statements if it has any. -/
def routines (unitName : String) (items : List Tree) : List Routine :=
  items.filterMap definition? ++
    match items.filter (fun item => !Meaning.isDefinition item) with
    | [] => []
    | statement :: rest => [.statements unitName (statement :: rest)]

variable {options : Options} {known exports : List Export} {symbols symbols' : SymbolTable}

theorem finishes_of_closeFunction {name : String} {arity : Nat} {r : Option Value} {s : State} {f : Function}
    (h : closeFunction options name arity r s = .ok (f, symbols)) : ∃ s',
      Lower.onDraft (endBody r) s = .ok ((), s') ∧ f = s'.draft.builder.function := by
  obtain ⟨⟨⟨⟩, s'⟩, hend, h⟩ := except_bind_ok h
  obtain ⟨g, hfinish, h⟩ := except_bind_ok h
  obtain rfl := finishDraft_ok hfinish
  refine ⟨s', hend, ?_⟩
  split at h
  · obtain ⟨_, -, h⟩ := except_bind_ok h
    cases h
    rfl
  · cases h
    rfl

theorem lowerFunction_drafted {span : Span} {name : String} {names : List String} {body : Tree}
    {f : Function} {entry : Export} (ht : symbols.Tabulates known)
    (h : lowerFunction options symbols span name names body = .ok (f, entry, symbols')) :
    Drafted options.fault (.definition name names body) f := by
  obtain ⟨start, hopen, h⟩ := except_bind_ok h
  obtain ⟨⟨⟨⟩, s⟩, hbody, h⟩ := except_bind_ok h
  obtain ⟨⟨g, symbols₁⟩, hclose, h⟩ := except_bind_ok h
  obtain ⟨s', hend, rfl⟩ := finishes_of_closeFunction (locateError_eq_ok hclose)
  cases h
  exact ⟨known, symbols, _, ht, .definition (locateError_eq_ok hopen) hbody hend, rfl⟩

theorem lowerStatements_drafted {name : String} {items : List Tree} {f : Function}
    (ht : symbols.Tabulates known) (h : lowerStatements options symbols name items = .ok f) :
    Drafted options.fault (.statements name items) f := by
  rw [lowerStatements_eq] at h
  obtain ⟨start, hopen, h⟩ := except_bind_ok h
  obtain ⟨⟨last?, s⟩, hitems, h⟩ := except_bind_ok h
  obtain ⟨⟨r, s₁⟩, hresult, h⟩ := except_bind_ok h
  obtain ⟨⟨g, symbols₁⟩, hclose, h⟩ := except_bind_ok h
  obtain ⟨s', hend, rfl⟩ := finishes_of_closeFunction hclose
  cases h
  exact ⟨known, symbols, _, ht, .statements (locateError_eq_ok hopen) hitems hresult hend, rfl⟩

/-- The definitions among the items, one after the other. -/
theorem lowerItems_drafted {items : List Tree} {progress progress' : Progress}
    (ht : progress.symbols.Tabulates known)
    (h : items.foldlM (lowerItem options) progress = .ok progress') : ∃ fs,
      List.Forall₂ (Drafted options.fault) (items.filterMap definition?) fs ∧
        progress'.functions.toList = progress.functions.toList ++ fs := by
  induction items generalizing known progress with
  | nil =>
    cases h
    exact ⟨[], .nil, by simp⟩
  | cons item rest ih =>
    rw [List.foldlM_cons] at h
    obtain ⟨mid, hitem, h⟩ := except_bind_ok h
    unfold lowerItem at hitem
    split at hitem
    · obtain ⟨⟨f, entry, symbols⟩, hlower, hitem⟩ := except_bind_ok hitem
      obtain ⟨b, -, rfl, hsymbols⟩ := lowerFunction_compiled ht hlower
      cases hitem
      obtain ⟨fs, hdrafted, hfs⟩ := ih hsymbols h
      exact ⟨f :: fs, .cons (lowerFunction_drafted ht hlower) hdrafted, by simpa using hfs⟩
    · next hno =>
      -- Anything else is put aside, and no function comes of it yet.
      cases hitem
      have hnone : definition? item = none := by
        unfold definition?
        split
        · exact absurd rfl (hno _ _ _ _)
        · rfl
      obtain ⟨fs, hdrafted, hfs⟩ := ih (show (Progress.mk progress.symbols _ _
        (progress.statements.push item)).symbols.Tabulates known from ht) h
      refine ⟨fs, ?_, hfs⟩
      rwa [List.filterMap_cons_none hnone]

/-- The functions of a unit come of its definitions, in order, and of its top-level statements. -/
theorem lowerUnit_drafted {unitName : String} {tree : Tree} {emission : Emission}
    (h : lowerUnit options exports unitName (some tree) = .ok emission) :
    List.Forall₂ (Drafted options.fault) (routines unitName tree.items) emission.module.functions := by
  obtain ⟨symbols, himport, h⟩ := except_bind_ok h
  obtain ⟨progress, hitems, h⟩ := except_bind_ok h
  have ht := importExports_tabulates himport
  obtain ⟨fs, hdrafted, hfs⟩ := lowerItems_drafted ht hitems
  obtain ⟨-, es, -, -, -, hstatements, ht'⟩ := lowerItems_lowers ht hitems
  simp only [List.nil_append] at hfs hstatements
  unfold routines
  rw [← hstatements]
  split at h
  · next hempty =>
    cases h
    rw [show progress.statements.toList = [] by simpa using hempty, hfs]
    simpa using hdrafted
  · next hempty =>
    obtain ⟨f, hlower, h⟩ := except_bind_ok h
    cases h
    rw [Array.toList_push, hfs]
    refine List.rel_append hdrafted ?_
    cases hlist : progress.statements.toList with
    | nil => exact absurd (by simpa using hlist) hempty
    | cons statement rest =>
      rw [hlist] at hlower
      exact .cons (lowerStatements_drafted ht' hlower) .nil

/-- In every function of a unit phis stand only where ways meet, in an `if.join` or a `for.header`, with
an operand for each way, or, without operands, where control does not come to. A block with one
predecessor has none, the entry has none, and a block has at most one for each variable. Without
conditions and loops control comes to no phi. -/
theorem phis_at_merges {unitName : String} {tree : Tree} {emission : Emission}
    (h : lowerUnit options exports unitName (some tree) = .ok emission) :
    List.Forall₂ (fun routine f => ∃ symbols d, Routine.EndsIn options.fault symbols routine d ∧
        f = d.builder.function ∧ PhisAtMerges d routine.branches ∧
        (routine.branches = false → ∀ b p, f.Path p b → (f.block b).phis = []))
      (routines unitName tree.items) emission.module.functions := by
  refine (lowerUnit_drafted h).imp fun routine f hdrafted => ?_
  obtain ⟨known, symbols, d, ht, hends, rfl⟩ := hdrafted
  have hphis := hends.phisAtMerges ht
  refine ⟨symbols, d, hends, rfl, hphis, fun hflat b p hp => ?_⟩
  rw [hflat] at hphis
  exact hphis.flat hp

/-- A function with a loop, a condition and a statement behind `return` has two phis in the loop header, one
where the bodies of the condition meet, and one in the block behind `return`. A function that only divides,
calls and assigns again has none. -/
theorem phis_at_merges_loop : ∃ (tree : Tree) (emission : Emission) (f g : Function),
    lowerUnit Options.default [] defaultUnitName (some tree) = .ok emission ∧
    emission.module.functions = [f, g] ∧
    f.blocks.toList.map (fun info => (info.label, info.phis.length)) = [("entry", 0), ("for.header", 2),
      ("for.body", 0), ("for.body_end", 0), ("for.end", 0), ("if.then", 0), ("if.else", 0), ("if.join", 1),
      ("after_return", 1), ("after_return", 0)] ∧
    (∃ d, f = d.builder.function ∧ PhisAtMerges d true) ∧
    ∀ b p, g.Path p b → (g.block b).phis = [] := by
  obtain ⟨⟨tree, emission⟩, hcompile, hshape⟩ := exists_ok_of_map (f := fun r =>
      ((routines defaultUnitName r.1.items).map Routine.branches,
        r.2.module.functions.map fun f => f.blocks.toList.map fun info => (info.label, info.phis.length)))
    (x := parse ("fn f(n)\n  let x = 0\n  for i < n\n    x = x + i\n  if x\n    return x\n    x = x + 1\n" ++
        "  return x\n\nfn g(a)\n  a = a / 2\n  a = f(a) / a\n  a\n") >>= fun tree =>
      compileTree Options.default [] defaultUnitName tree >>= fun emission => return (tree, emission))
    (b := ([true, false], [[("entry", 0), ("for.header", 2), ("for.body", 0), ("for.body_end", 0),
        ("for.end", 0), ("if.then", 0), ("if.else", 0), ("if.join", 1), ("after_return", 1),
        ("after_return", 0)],
      [("entry", 0), ("div.zero", 0), ("div.ok", 0), ("div.zero", 0), ("div.ok", 0)]])) (by decide +kernel)
  obtain ⟨tree', -, hcompile⟩ := except_bind_ok hcompile
  obtain ⟨emission', hemission, hpair⟩ := except_bind_ok hcompile
  cases hpair
  have hlower := compileTree_ok hemission
  obtain ⟨hbranches, hblocks⟩ := Prod.mk.inj hshape
  obtain ⟨f, fs, hfunctions, hf, hfs⟩ := List.map_eq_cons_iff.1 hblocks
  obtain ⟨g, fs, rfl, -, hfs⟩ := List.map_eq_cons_iff.1 hfs
  obtain rfl := List.map_eq_nil_iff.1 hfs
  have hall := phis_at_merges hlower
  dsimp only at hbranches hfunctions
  generalize routines defaultUnitName tree.items = rs at hall hbranches
  rw [hfunctions] at hall
  cases hall with
  | cons hfirst hrest =>
    cases hrest with
    | cons hsecond hrest =>
      obtain ⟨hbranches₁, hbranches⟩ := List.cons.inj hbranches
      obtain ⟨hbranches₂, -⟩ := List.cons.inj hbranches
      obtain ⟨_, d, -, hd, hphis, -⟩ := hfirst
      obtain ⟨_, _, -, -, -, hflat⟩ := hsecond
      exact ⟨tree, emission, f, g, hlower, hfunctions, hf, ⟨d, hd, hbranches₁ ▸ hphis⟩, hflat hbranches₂⟩

end Abacus.Lowering
