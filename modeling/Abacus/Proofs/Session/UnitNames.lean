import Abacus.Proofs.Naming.UnitName
import Abacus.Proofs.Session.Histories

/-!
# The names that a session makes up

A session names the function of the top-level statements of a unit after the number of units that have
compiled. Nothing reserves these names: a text may define one of them, before or after the session
uses it. As long as no text does, the names of the session and those of its texts stay apart.

* `Generated` — the names that sessions make up;
* `Session.Reached.linked_name` — every name that is linked is exported, or was made up for an earlier
  unit;
* `Session.KeepsApart` — what holds of a unit if its name is not taken;
* `Session.generated_names_apart` — this holds unless a text defines a name that sessions make up;
* `Session.generated_names_collide` — what happens if one does.
-/

namespace Abacus

open Abacus.Flow (Function Module)
open Abacus.Lowering
open Abacus.Machine (Program)

/-! ## Functions that are added -/

namespace Machine.Program

variable {p : Program} {m : Module} {name : String}

theorem get?_eq_none_iff : p.get? name = none ↔ name ∉ p.names := by
  simp [get?, names, List.find?_eq_none]

/-- Functions whose names are new are added behind those that are there. -/
theorem functions_link (hdistinct : (m.functions.map Function.name).Nodup)
    (hnew : ∀ f ∈ m.functions, p.get? f.name = none) :
    (p.link m).functions = p.functions ++ m.functions := by
  obtain ⟨functions⟩ := m
  induction functions generalizing p with
  | nil => exact (List.append_nil _).symm
  | cons f rest ih =>
    have hinsert : (p.insert f).functions = p.functions ++ [f] := by
      have hf := get?_eq_none_iff.1 (hnew f List.mem_cons_self)
      unfold insert
      rw [if_neg]
      simpa [names] using hf
    rw [List.map_cons, List.nodup_cons] at hdistinct
    have hrest : ∀ g ∈ rest, (p.insert f).get? g.name = none := by
      intro g hg
      have hne : f.name ≠ g.name := fun heq => hdistinct.1 (heq ▸ List.mem_map_of_mem hg)
      rw [get?_insert_of_ne hne]
      exact hnew g (List.mem_cons_of_mem _ hg)
    have hlink : (p.link ⟨f :: rest⟩).functions = ((p.insert f).link ⟨rest⟩).functions := rfl
    rw [hlink, ih hdistinct.2 hrest, hinsert, List.append_assoc]
    rfl

end Machine.Program

/-! ## The functions of a unit -/

section

variable {config : FaultConfig} {known exports es : List Export} {items : List Tree}
  {fs : List Function} {unitName : String} {emission : Emission}

/-- The definitions of a unit are exported under their names. -/
theorem Lowering.Lowers.functionNames (h : Lowers config known items fs es) :
    es.map Export.name = items.filterMap Tree.functionName? := by
  induction h with
  | nil => rfl
  | function _ _ ih => simpa [Tree.functionName?] using ih
  | @statement known item rest fs es hstatement _ ih =>
    have hnone : item.functionName? = none := by
      obtain ⟨span, shape⟩ := item
      cases shape with
      | fnDef => cases hstatement
      | _ => rfl
    rw [List.filterMap_cons_none hnone, ih]

/-- What a unit exports are its definitions; its other function has the name of the unit. -/
theorem Lowering.UnitLowers.functionNames
    (h : UnitLowers config exports unitName items emission) :
    emission.exports.map Export.name = items.filterMap Tree.functionName? ∧
      ∀ f ∈ emission.module.functions,
        f.name ∈ items.filterMap Tree.functionName? ∨ f.name = unitName := by
  have hdefinitions : ∀ {fs es}, Lowers config exports items fs es → ∀ f ∈ fs,
      f.name ∈ items.filterMap Tree.functionName? := by
    intro fs es hlowers f hf
    rw [← hlowers.functionNames, ← hlowers.names]
    exact List.mem_map_of_mem hf
  cases h with
  | definitions hlowers _ =>
    exact ⟨hlowers.functionNames, fun f hf => .inl (hdefinitions hlowers f hf)⟩
  | statements hlowers _ hcompiled =>
    refine ⟨hlowers.functionNames, fun f hf => ?_⟩
    rcases List.mem_append.1 hf with hf | hf
    · exact .inl (hdefinitions hlowers f hf)
    · exact .inr (List.mem_singleton.1 hf ▸ hcompiled.name)

end

/-! ## Names that sessions make up -/

/-- The name that a session makes up for the unit with that number. -/
def generatedName (n : Nat) : String := "__repl_" ++ toString n

/-- Sessions make up the name. -/
def Generated (name : String) : Prop := ∃ n, name = generatedName n

theorem generatedName_injective : Function.Injective generatedName := by
  intro m n h
  have hdigits : Nat.toDigits 10 m = Nat.toDigits 10 n := by
    have hlists := congrArg String.toList h
    simpa [generatedName, Nat.toString_eq_ofList_toDigits] using hlists
  rw [← Nat.ofDigitChars_ten_toDigits (n := m), hdigits, Nat.ofDigitChars_ten_toDigits]

theorem generatedName_ne_pi (n : Nat) : generatedName n ≠ piName := by
  intro h
  have hlists := congrArg String.toList h
  simp [generatedName, piName] at hlists

namespace Session

variable {options : Options} {s next : Session} {source : String} {tree : Tree}
  {emission : Emission}

/-- The name of a unit is made up from the number of units before it. -/
theorem unitName_eq (s : Session) : s.unitName = generatedName s.units := rfl

/-- A unit that has been parsed and lowered compiles. -/
theorem compileUnit_of_parse (hparse : parse source = .ok tree) :
    s.compileUnit source = match lowerUnit s.options s.exports s.unitName (some tree) with
      | .ok emission => .ok (emission, s.accept emission)
      | .error e => .error [e.diagnostic] := by
  have hcompile : s.compileUnit source =
      compileTree s.options s.exports s.unitName tree >>= fun emission =>
        pure (emission, s.accept emission) := by
    unfold compileUnit
    rw [hparse]
    rfl
  rw [hcompile, compileTree]
  cases lowerUnit s.options s.exports s.unitName (some tree) <;> rfl

/-- A name that is linked is exported, or it was made up for an earlier unit. -/
theorem Reached.linked_name (h : Reached options s) {name : String}
    (hname : name ∈ s.program.names) :
    name ∈ s.exports.map Export.name ∨ ∃ n < s.units, name = generatedName n := by
  induction h generalizing name with
  | start => cases hname
  | @unit s s' source emission _ hcompile ih =>
    obtain ⟨rfl, tree, hlower⟩ := compileUnit_ok hcompile
    obtain ⟨hexports, hfunctions⟩ := (lowerUnit_lowers hlower).functionNames
    show name ∈ (s.exports ++ emission.exports).map Export.name ∨ ∃ n < s.units + 1, _
    rw [List.map_append, List.mem_append, hexports]
    by_cases hnew : name ∈ emission.module.functions.map Function.name
    · obtain ⟨f, hf, rfl⟩ := List.mem_map.1 hnew
      rcases hfunctions f hf with hdefined | hunit
      · exact .inl (.inr hdefined)
      · exact .inr ⟨s.units, Nat.lt_succ_self _, hunit⟩
    · have hold : name ∈ s.program.names := by
        by_contra hno
        refine Program.get?_eq_none_iff.1 ?_ hname
        show (s.program.link emission.module).get? name = none
        rw [Program.get?_link_of_notMem hnew]
        exact Program.get?_eq_none_iff.2 hno
      rcases ih hold with hexported | ⟨n, hn, heq⟩
      · exact .inl (.inl hexported)
      · exact .inr ⟨n, Nat.lt_succ_of_lt hn, heq⟩

/-- A name that is neither exported nor made up for an earlier unit is not linked. -/
theorem Reached.get?_eq_none (h : Reached options s) {name : String}
    (hexports : name ∉ s.exports.map Export.name) (hmade : ∀ n < s.units, name ≠ generatedName n) :
    s.program.get? name = none := by
  refine Program.get?_eq_none_iff.2 fun hname => ?_
  rcases h.linked_name hname with hexported | ⟨n, hn, heq⟩
  · exact hexports hexported
  · exact hmade n hn heq

/-! ## Units whose names are not taken -/

/-- The names of the session and those of the text stay apart: the name of the unit is free; a name is
found to be defined twice only if the text defines it; a unit is accepted if it is accepted under any
name that the text does not mention; and the functions of a unit are added to those that are linked. -/
structure KeepsApart (s : Session) (source : String) (tree : Tree) : Prop where
  exported : s.unitName ∉ s.exports.map Export.name
  linked : s.program.get? s.unitName = none
  duplicate : ∀ {diagnostics}, s.compileUnit source = .error diagnostics → ∃ e,
    lowerUnit s.options s.exports s.unitName (some tree) = .error e ∧
      diagnostics = [e.diagnostic] ∧ ∀ name, e.cause = .duplicate name → name ∈ definedNames tree
  accepted : ∀ {fresh emission}, fresh ∉ mentionedNames tree →
    lowerUnit s.options s.exports fresh (some tree) = .ok emission →
      ∃ result, s.compileUnit source = .ok result
  added : ∀ {emission next}, s.compileUnit source = .ok (emission, next) →
    next.program.functions = s.program.functions ++ emission.module.functions

theorem Reached.keepsApart (h : Reached options s) (hparse : parse source = .ok tree)
    (hexports : ∀ e ∈ s.exports, ¬ Generated e.name)
    (htree : ∀ name ∈ tree.functionNames, ¬ Generated name) : s.KeepsApart source tree := by
  have hunit : Generated s.unitName := ⟨s.units, rfl⟩
  have hfree : s.unitName ∉ s.exports.map Export.name := by
    intro hmem
    obtain ⟨e, he, hname⟩ := List.mem_map.1 hmem
    exact hexports e he (hname ▸ hunit)
  have hnone : s.program.get? s.unitName = none :=
    h.get?_eq_none hfree fun n hn heq => Nat.ne_of_gt hn (generatedName_injective heq)
  have hitems := parse_isItem hparse
  have hdistinct := h.linked.2.distinct
  constructor
  case exported => exact hfree
  case linked => exact hnone
  case duplicate =>
    intro diagnostics hcompile
    rw [compileUnit_of_parse hparse] at hcompile
    split at hcompile
    · cases hcompile
    · next e hlower =>
      cases hcompile
      refine ⟨e, hlower, rfl, fun name hcause => ?_⟩
      have hviolation := ((lowerUnit_wellScoped s.options s.unitName hdistinct hitems).2 e).1 hlower
      rcases duplicate_defined hviolation hcause with hdefined | ⟨-, hmem⟩
      · exact hdefined
      · exact absurd hmem hfree
  case accepted =>
    intro fresh emission hfresh hlower
    have hscoped := (lowerUnit_wellScoped s.options fresh hdistinct hitems).1.1 ⟨emission, hlower⟩
    have hother : s.unitName ∉ tree.functionNames := fun hmem => htree _ hmem hunit
    obtain ⟨emission', hlower'⟩ := (lowerUnit_wellScoped s.options s.unitName hdistinct hitems).1.2
      (wellScoped_unit_renamed hfresh (generatedName_ne_pi s.units) hfree hother hscoped)
    refine ⟨(emission', s.accept emission'), ?_⟩
    rw [compileUnit_of_parse hparse, hlower']
  case added =>
    intro emission next hcompile
    have hnames := List.nodup_append.1 (h.unit_distinct hcompile)
    rw [compileUnit_of_parse hparse] at hcompile
    split at hcompile
    · next emission' hlower =>
      cases hcompile
      have hfunctions := (lowerUnit_lowers hlower).functionNames.2
      refine Program.functions_link hnames.2.1 fun f hf => ?_
      rcases hfunctions f hf with hdefined | hname
      · have hnew : f.name ∉ s.exports.map Export.name :=
          fun hmem => hnames.2.2 _ hmem _ (List.mem_map_of_mem hf) rfl
        exact h.get?_eq_none hnew fun n _ heq => htree f.name hdefined ⟨n, heq⟩
      · rw [hname]
        exact hnone
    · cases hcompile

/-- After every history: if no name that sessions make up is exported so far, and the text defines
none, then the names of the session and those of the text stay apart. -/
theorem generated_names_apart (options : Options) (fuel : Nat) (history : List Request)
    (hparse : parse source = .ok tree)
    (hexports : ∀ e ∈ ((start options fuel).follow history).exports, ¬ Generated e.name)
    (htree : ∀ name ∈ tree.functionNames, ¬ Generated name) :
    ((start options fuel).follow history).KeepsApart source tree :=
  ((Reached.start fuel).follow history).keepsApart hparse hexports htree

theorem not_generated {name : String} (h : name.toList.head? ≠ some '_') : ¬ Generated name := by
  rintro ⟨n, rfl⟩
  simp [generatedName] at h

/-- After a definition and a unit that has run, a unit with a definition and a statement. -/
theorem apart_after_definition :
    let s := (start Options.default 20).follow [.compile "fn f(a) return a\n", .eval "f(1)\n"]
    s.units = 2 ∧ (∀ e ∈ s.exports, ¬ Generated e.name) ∧
      ∃ tree, parse "fn g() return f(2)\ng()\n" = .ok tree ∧ tree.functionNames = ["g"] ∧
        s.KeepsApart "fn g() return f(2)\ng()\n" tree := by
  intro s
  obtain ⟨tree, hparse, hnames⟩ := exists_ok_of_map (b := ["g"])
    (x := parse "fn g() return f(2)\ng()\n") (f := Tree.functionNames) (by decide +kernel)
  have hexports : ∀ e ∈ s.exports, ¬ Generated e.name := by
    have hheads : ∀ e ∈ s.exports, e.name.toList.head? ≠ some '_' := by decide +kernel
    exact fun e he => not_generated (hheads e he)
  refine ⟨by decide +kernel, hexports, tree, hparse, hnames,
    generated_names_apart Options.default 20 _ hparse hexports fun name hname => ?_⟩
  rw [hnames, List.mem_singleton] at hname
  exact not_generated (by rw [hname]; decide)

/-- A session in which a text has defined the name of the next unit. -/
def nameTaken : Session :=
  (start Options.default 20).follow [.compile "fn __repl_1() return 1\n"]

/-- A session that has made up a name for its first unit. -/
def nameMade : Session := (start Options.default 20).follow [.eval "1\n"]

/-- A text that defines the name of a later unit makes that unit fail, although it defines nothing; and
a text that defines the name of an earlier unit puts its function in the place of that unit's. -/
theorem generated_names_collide :
    (∃ tree d, parse "2\n" = .ok tree ∧ definedNames tree = [] ∧
      nameTaken.compileUnit "2\n" = .error [d] ∧
      d.message = (Cause.duplicate "__repl_1").message) ∧
    ∃ emission next, nameMade.compileUnit "fn __repl_0() return 2\n" = .ok (emission, next) ∧
      nameMade.program.names = ["__repl_0"] ∧
      next.program.functions = emission.module.functions ∧
      next.program.functions ≠ nameMade.program.functions := by
  constructor
  · obtain ⟨tree, hparse, hnames⟩ := exists_ok_of_map (b := ([] : List String))
      (x := parse "2\n") (f := definedNames) (by decide +kernel)
    have hmessages : ((nameTaken.compileUnit "2\n").mapError (List.map Diagnostic.message)).map
        (fun _ => ()) = .error [(Cause.duplicate "__repl_1").message] := by
      decide +kernel
    cases hcompile : nameTaken.compileUnit "2\n" with
    | ok result =>
      rw [hcompile] at hmessages
      cases hmessages
    | error diagnostics =>
      rw [hcompile] at hmessages
      obtain ⟨d, rfl, hmessage⟩ := List.map_eq_singleton_iff.1 (Except.error.inj hmessages)
      exact ⟨tree, d, hparse, hnames, rfl, hmessage⟩
  · obtain ⟨⟨emission, next⟩, hcompile, hreplaced⟩ := exists_ok_of_map (b := true)
      (x := nameMade.compileUnit "fn __repl_0() return 2\n")
      (f := fun (emission, next) => decide (nameMade.program.names = ["__repl_0"] ∧
        next.program.functions = emission.module.functions ∧
        next.program.functions ≠ nameMade.program.functions))
      (by decide +kernel)
    exact ⟨emission, next, hcompile, of_decide_eq_true hreplaced⟩

end Session

end Abacus
