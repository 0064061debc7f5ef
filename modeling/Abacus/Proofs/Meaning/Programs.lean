import Abacus.Proofs.Lowering.Flags
import Abacus.Proofs.Meaning.Functions
import Abacus.Proofs.Pairing.Locality

/-!
# Compilation preserves meaning

A run of a function that has been compiled comes to what the evaluation of its source text comes to,
however calls are nested, and so it does not go wrong.

* `Sourced` — what the functions of a linked program mean;
* `Sourced.callable` — calls that may be nested to some depth, by induction on the depth;
* `Preserves` — a run comes to what an evaluation comes to;
* `compile_preserves` — runs of the functions of a source text;
* `Loaded.run_safe` — runs of all programs end well, or with a fault of the function called, or for
  lack of fuel.
-/

namespace Abacus.Meaning

open Abacus.Lowering
open Abacus.Lowering.Plan
open Abacus.Machine

variable {config : FaultConfig} {p : Program} {exports : List Export}
  {definition? : String → Option Definition}

/-! ## Calls -/

/-- `definition?` gives what the functions of a linked program mean. -/
structure Sourced (config : FaultConfig) (p : Program) (exports : List Export)
    (definition? : String → Option Definition) : Prop where
  compiled : ∀ {name f}, p.get? name = some f → ∃ known routine b d,
    Compiled config known routine b f ∧ routine.name = name ∧ known ⊆ exports ∧
      (∀ e ∈ exports, e.name = name → e = ⟨name, routine.arity, b⟩) ∧
      definition? name = some d ∧ routine.Means known d
  exported : ∀ e ∈ exports, ∃ f, p.get? e.name = some f

theorem mem_visible {opened : SymbolTable} {known : List Export} {visible : List String}
    (h : opened.Tabulates known) (hvisible : NamesOf visible known) (name : String) :
    name ∈ visible ↔ (opened.lookup? name).isSome = true := by
  rw [hvisible name]
  constructor
  · intro hmem
    obtain ⟨e, he, rfl⟩ := List.mem_map.1 hmem
    obtain ⟨s, hs, -⟩ := h.lookup_of_export he
    rw [hs]
    rfl
  · intro hsome
    obtain ⟨s, hs⟩ := Option.isSome_iff_exists.1 hsome
    obtain ⟨e, he, rfl, -⟩ := h.export_of_lookup hs
    exact List.mem_map_of_mem he

/-- What an activation meets if calls of the function itself and of those known come to what `call`
says. -/
theorem Scene.of_calls {routine : Routine} {known : List Export} {opened closed : SymbolTable} {ω : Plan}
    {b : Bool} {visible : List String} {depth : Nat}
    {call : String → List Int64 → Answer × List FaultReport}
    (htable : opened.Tabulates (known ++ [⟨routine.name, routine.arity, false⟩]))
    (hmade : Made config opened routine b closed ω)
    (hvisible : NamesOf visible (known ++ [⟨routine.name, routine.arity, false⟩]))
    (hcalls : ∀ e ∈ known, ∀ arguments : List Int64, arguments.length = e.arity →
      Callable p ⟨config.code, config.typeId⟩ depth e.mayFault e.name arguments (call e.name arguments))
    (hself : ∀ arguments : List Int64, arguments.length = routine.arity →
      Callable p ⟨config.code, config.typeId⟩ depth b routine.name arguments
        (call routine.name arguments)) :
    Scene ⟨p, b, ⟨config.code, config.typeId⟩⟩ config opened ω
      ⟨routine.name, visible, config.code, call, depth + 1⟩ depth := by
  constructor
  case whole => exact hmade.whole htable.global
  case global => exact htable.global
  case self => exact hmade.signature.1
  case fault => rfl
  case code => rfl
  case rounds => rfl
  case raises => exact (hmade.raises_iff htable.global).1
  case visible => exact mem_visible htable hvisible
  case calls =>
    intro name id arity handled arguments hname hcount
    obtain ⟨e, he, rfl, hbinding⟩ := htable.export_of_lookup hname
    cases hbinding
    rcases List.mem_append.1 he with he | he
    · -- Functions before have handlers where they may raise a fault.
      have hne : e.name ≠ routine.name := by
        have hdistinct := htable.distinct
        rw [List.map_append, List.nodup_append] at hdistinct
        exact hdistinct.2.2 _ (List.mem_map_of_mem he) _ (by simp)
      refine ⟨e.mayFault, hcalls e he arguments hcount, fun hflag => ?_⟩
      rw [if_neg hne]
      exact hflag
    · obtain rfl := List.mem_singleton.1 he
      refine ⟨b, hself arguments hcount, fun hflag => ?_⟩
      rw [if_pos rfl]
      exact ⟨rfl, hflag⟩

/-- A call of a function of the program comes to the answer. A fault comes out only of functions that
raise one. -/
theorem Sourced.callable (h : Sourced config p exports definition?) (depth : Nat) {name : String}
    {f : Flow.Function} {b : Bool} {arguments : List Int64} (hf : p.get? name = some f)
    (hraises : f.Raises ↔ b = true) (hcount : arguments.length = f.params.length) :
    Callable p ⟨config.code, config.typeId⟩ depth b name arguments
      (answer config.code definition? depth name arguments) := by
  induction depth generalizing name f b arguments with
  | zero =>
    have hparams : (arguments.map Scalar.int).length = f.params.length := by
      rw [List.length_map, hcount]
    obtain ⟨inner, henter, -⟩ := Frame.enter_ok hparams
    exact ⟨f, inner, hf, henter, .exhausted (lasts_zero inner)⟩
  | succ depth ih =>
    obtain ⟨known, routine, b', d, hcompiled, rfl, hknown, -, hd, visible, rfl, hvisible⟩ :=
      h.compiled hf
    obtain rfl : b' = b := Bool.eq_iff_iff.2 (hcompiled.raises_iff.symm.trans hraises)
    have harity := hcompiled.params
    have hscene : ∀ e ∈ known, ∀ arguments : List Int64, arguments.length = e.arity →
        Callable p ⟨config.code, config.typeId⟩ depth e.mayFault e.name arguments
          (answer config.code definition? depth e.name arguments) := by
      intro e he arguments hcount
      obtain ⟨g, hg⟩ := h.exported e (hknown he)
      obtain ⟨_, other, b, _, hother, hname, -, hexports, -⟩ := h.compiled hg
      have hentry := hexports e (hknown he) rfl
      refine ih hg ?_ ?_
      · rw [hother.raises_iff, hentry]
      · rw [hother.params, hcount, hentry]
    obtain ⟨htable, hmade, rfl⟩ := hcompiled
    have hS := Scene.of_calls htable hmade hvisible hscene fun arguments hcount =>
      ih hf hraises (hcount.trans harity.symm)
    obtain ⟨inner, henter, hanswers⟩ := hmade.answers hS rfl (hcount.trans harity)
    refine ⟨_, inner, hf, henter, ?_⟩
    unfold answer
    rw [hd]
    exact hanswers

/-! ## Runs -/

/-- A run of a function, by its fuel, comes to what the evaluation comes to, by the depth of its
calls. How many steps the run takes does not depend on its fuel. -/
structure Preserves (name : String) (code : Int64) (run : Nat → Except RuntimeError Execution)
    (evaluate : Nat → Answer × List FaultReport) : Prop where
  value : ∀ {depth v reports}, evaluate depth = (.value v, reports) → ∃ steps, ∀ fuel, run fuel =
    if steps ≤ fuel then .ok ⟨v, reports, steps⟩ else .error (.fuelExhausted fuel)
  fault : ∀ {depth reports}, evaluate depth = (.fault, reports) → ∃ steps, ∀ fuel, run fuel =
    if steps ≤ fuel then .error (.uncaughtFault name code) else .error (.fuelExhausted fuel)
  exhausted : ∀ {depth reports}, evaluate depth = (.exhausted, reports) → ∀ fuel < depth,
    run fuel = .error (.fuelExhausted fuel)
  sound : ∀ depth reports, evaluate depth ≠ (.stuck, reports)

/-- A run ends well, with a fault of the function called, or for lack of fuel. -/
def EndsSafely (name : String) (code : Int64) (fuel : Nat) (result : Except RuntimeError Execution) :
    Prop :=
  (∃ execution, result = .ok execution) ∨ result = .error (.fuelExhausted fuel) ∨
    result = .error (.uncaughtFault name code)

/-- Runs of the functions of a linked program come to what evaluation comes to. -/
theorem Sourced.preserves (h : Sourced config p exports definition?) {name : String}
    {f : Flow.Function} (hf : p.get? name = some f) {arguments : List Int64}
    (hcount : arguments.length = f.params.length) :
    Preserves name config.code (p.run name arguments)
      fun depth => answer config.code definition? depth name arguments := by
  obtain ⟨known, routine, b, -, hcompiled, rfl, -⟩ := h.compiled hf
  have hcallable := fun depth => h.callable depth hf hcompiled.raises_iff hcount
  constructor
  case value =>
    intro depth v reports heval
    obtain ⟨g, inner, hg, henter, hanswers⟩ := hcallable depth
    rw [heval] at hanswers
    cases hanswers with
    | @value _ steps _ hcloses => exact ⟨steps, fun fuel => Program.run_of_closes hg henter hcloses fuel⟩
  case fault =>
    intro depth reports heval
    obtain ⟨g, inner, hg, henter, hanswers⟩ := hcallable depth
    obtain rfl : g = f := Option.some.inj (hg.symm.trans hf)
    rw [heval] at hanswers
    cases hanswers with
    | @fault steps _ _ hcloses =>
      refine ⟨steps, fun fuel => (Program.run_of_closes hg henter hcloses fuel).trans ?_⟩
      rw [hcompiled.name]
      rfl
  case exhausted =>
    intro depth reports heval fuel hlt
    obtain ⟨g, inner, hg, henter, hanswers⟩ := hcallable depth
    rw [heval] at hanswers
    cases hanswers with
    | exhausted hlasts => exact Program.run_of_lasts hg henter hlasts hlt
  case sound =>
    intro depth reports heval
    obtain ⟨g, inner, hg, henter, hanswers⟩ := hcallable depth
    rw [heval] at hanswers
    cases hanswers

section

variable {name : String} {code : Int64} {run : Nat → Except RuntimeError Execution}
  {evaluate : Nat → Answer × List FaultReport} (h : Preserves name code run evaluate)
include h

/-- What a run with some fuel ends with, the evaluation comes to at a depth that is greater. -/
theorem Preserves.run_cases (fuel : Nat) :
    (∃ v reports steps, evaluate (fuel + 1) = (.value v, reports) ∧
      run fuel = .ok ⟨v, reports, steps⟩) ∨
    run fuel = .error (.fuelExhausted fuel) ∨ run fuel = .error (.uncaughtFault name code) := by
  generalize heval : evaluate (fuel + 1) = result
  obtain ⟨answer, reports⟩ := result
  cases answer with
  | value v =>
    obtain ⟨steps, hrun⟩ := h.value heval
    rw [hrun fuel]
    split
    · exact .inl ⟨v, reports, steps, rfl, rfl⟩
    · exact .inr (.inl rfl)
  | fault =>
    obtain ⟨steps, hrun⟩ := h.fault heval
    rw [hrun fuel]
    split
    · exact .inr (.inr rfl)
    · exact .inr (.inl rfl)
  | exhausted => exact .inr (.inl (h.exhausted heval fuel (Nat.lt_succ_self fuel)))
  | stuck => exact absurd heval (h.sound _ _)

/-- What a run gives, the evaluation gives as well. -/
theorem Preserves.value_iff {v : Int64} {reports : List FaultReport} :
    (∃ depth, evaluate depth = (.value v, reports)) ↔
      ∃ fuel steps, run fuel = .ok ⟨v, reports, steps⟩ := by
  constructor
  · intro ⟨depth, heval⟩
    obtain ⟨steps, hrun⟩ := h.value heval
    exact ⟨steps, steps, by rw [hrun, if_pos (Nat.le_refl steps)]⟩
  · intro ⟨fuel, steps, hrun⟩
    obtain ⟨v', reports', steps', heval, hok⟩ | herror | herror := h.run_cases fuel
    · rw [hok] at hrun
      cases hrun
      exact ⟨fuel + 1, heval⟩
    · rw [herror] at hrun
      cases hrun
    · rw [herror] at hrun
      cases hrun

/-- The run ends well, with a fault of the function called, or for lack of fuel. -/
theorem Preserves.safe (fuel : Nat) : EndsSafely name code fuel (run fuel) := by
  apply (h.run_cases fuel).imp_left
  rintro ⟨v, reports, steps, -, hok⟩
  exact ⟨_, hok⟩

end

/-! ## Source texts -/

/-- The definition of a name. -/
def definitionOf (definitions : List Definition) (name : String) : Option Definition :=
  definitions.find? (·.name = name)

/-- The functions of a unit and its definitions have the same names. -/
theorem definitionNames {unitName : String} {items : List Tree} {emission : Emission}
    (h : UnitLowers config exports unitName items emission) (visible : List String) :
    (definitions visible unitName items).map Definition.name =
      emission.module.functions.map Flow.Function.name := by
  unfold definitions
  cases h with
  | definitions hlowers hnone =>
    dsimp only
    rw [if_pos (by simp [hnone]), hlowers.definitionNames, hlowers.names]
  | statements hlowers hsome hcompiled =>
    dsimp only
    rw [if_neg (by simpa using hsome), List.map_append, hlowers.definitionNames, List.map_append,
      hlowers.names, List.map_singleton, List.map_singleton, hcompiled.name]
    rfl

theorem means_name {routine : Routine} {known : List Export} {d : Definition}
    (h : routine.Means known d) : d.name = routine.name := by
  obtain ⟨visible, rfl, -⟩ := h
  cases routine <;> rfl

/-- The functions of a source text that is lowered as a unit of its own. -/
theorem sourced_of_unit {unitName : String} {items : List Tree} {emission : Emission}
    (h : UnitLowers config [] unitName items emission) :
    Sourced config (.ofModule emission.module) emission.exports
      (definitionOf (definitions [] unitName items)) := by
  obtain ⟨-, hfunctions, hexported⟩ := h.compiled .nil
  have hdistinct := h.distinct .nil
  rw [List.map_nil, List.nil_append] at hdistinct
  constructor
  case compiled =>
    intro name f hf
    unfold Program.ofModule at hf
    rw [Program.get?_link, show Program.empty.get? name = none from rfl, Option.or_none] at hf
    have hmem := List.mem_reverse.1 (List.mem_of_find?_eq_some hf)
    have hname : f.name = name := by simpa using List.find?_some hf
    obtain ⟨known, routine, b, hcompiled, hknown, hflag, hmeans⟩ := hfunctions f hmem
    obtain rfl : routine.name = name := hcompiled.name.symm.trans hname
    obtain ⟨d, hd, hmeans⟩ := hmeans [] (by simp [NamesOf])
    refine ⟨known, routine, b, d, hcompiled, rfl, hknown, hflag, ?_, hmeans⟩
    refine find?_of_distinct ?_ hd (means_name hmeans)
    rwa [definitionNames h]
  case exported =>
    intro e he
    obtain ⟨f, hf, hname⟩ := hexported e he
    exact ⟨f, hname ▸ Program.get?_link_of_mem hdistinct hf⟩

/-- Compilation preserves meaning: each function of a source text that compiles, called with as many
integers as it has parameters, comes to what the evaluation of the source text comes to. -/
theorem compile_preserves {options : Options} {source : String} {m : Flow.Module}
    (h : compile options source = .ok m) : ∃ tree, parse source = .ok tree ∧
      ∀ f ∈ m.functions, ∀ arguments : List Int64, arguments.length = f.params.length →
        Preserves f.name options.fault.code ((Program.ofModule m).run f.name arguments) fun depth =>
          answer options.fault.code (definitionOf (definitions [] defaultUnitName tree.items)) depth
            f.name arguments := by
  obtain ⟨tree, hparse, h⟩ := except_bind_ok h
  obtain ⟨emission, htree, hm⟩ := except_bind_ok h
  cases hm
  have hunit := lowerUnit_lowers (compileTree_ok htree)
  refine ⟨tree, hparse, fun f hf arguments hcount => ?_⟩
  have hdistinct := hunit.distinct .nil
  rw [List.map_nil, List.nil_append] at hdistinct
  exact (sourced_of_unit hunit).preserves (Program.get?_link_of_mem hdistinct hf) hcount

/-- A function that divides, and one that calls it: the fault is taken and reported. -/
theorem compile_preserves_division : ∃ m, compile Options.default
      "fn f(a, b)\n  return a / b\n\nfn g(a)\n  return f(a, 0) + 1\n" = .ok m ∧
    ∃ steps, ∀ fuel, (Program.ofModule m).run "g" [3] fuel =
      if steps ≤ fuel then .ok ⟨0, [⟨"g", Options.default.fault.code⟩], steps⟩
      else .error (.fuelExhausted fuel) := by
  obtain ⟨m, hm, hnames⟩ := exists_ok_of_map
    (f := fun m : Flow.Module => m.functions.map fun f => (f.name, f.params.length))
    (x := compile Options.default "fn f(a, b)\n  return a / b\n\nfn g(a)\n  return f(a, 0) + 1\n")
    (b := [("f", 2), ("g", 1)]) (by decide +kernel)
  refine ⟨m, hm, ?_⟩
  obtain ⟨tree, hparse, hall⟩ := compile_preserves hm
  obtain ⟨_, hparse', heval⟩ := exists_ok_of_map
    (f := fun tree : Tree => answer Options.default.fault.code
      (definitionOf (definitions [] defaultUnitName tree.items)) 3 "g" [3])
    (x := parse "fn f(a, b)\n  return a / b\n\nfn g(a)\n  return f(a, 0) + 1\n")
    (b := (.value 0, [⟨"g", Options.default.fault.code⟩])) (by decide +kernel)
  cases hparse.symm.trans hparse'
  have hmem : ("g", 1) ∈ m.functions.map fun f => (f.name, f.params.length) := by simp [hnames]
  obtain ⟨f, hf, hsignature⟩ := List.mem_map.1 hmem
  obtain ⟨hname, hparams⟩ := Prod.mk.inj hsignature
  have hpreserves := hall f hf [3] hparams.symm
  rw [hname] at hpreserves
  exact hpreserves.value heval

/-! ## Safety -/

/-- Each function of a linked program has been lowered from something that it means. -/
theorem exists_sourced (h : Linked config p exports) :
    ∃ definition?, Sourced config p exports definition? := by
  have hall : ∀ name, ∃ d? : Option Definition, ∀ f, p.get? name = some f → ∃ known routine b d,
      Compiled config known routine b f ∧ routine.name = name ∧ known ⊆ exports ∧
        (∀ e ∈ exports, e.name = name → e = ⟨name, routine.arity, b⟩) ∧
        d? = some d ∧ routine.Means known d := by
    intro name
    cases hf : p.get? name with
    | none => exact ⟨none, fun f hf => nomatch hf⟩
    | some f =>
      obtain ⟨known, routine, b, hcompiled, hname, hknown, hflag⟩ := h.compiled hf
      have hnames : NamesOf (known.map Export.name) known := fun _ => Iff.rfl
      refine ⟨some (routine.meaning (routine.name :: known.map Export.name)), fun g hg => ?_⟩
      cases hg
      exact ⟨known, routine, b, _, hcompiled, hname, hknown, hflag, rfl, _, rfl, hnames.cons _ false⟩
  choose definition? hdefinition using hall
  exact ⟨definition?, fun hf => hdefinition _ _ hf, h.exported⟩

/-- A program that has been compiled from a source text, or linked in a session. -/
inductive Loaded (options : Options) : Program → Prop
  | compiled {source : String} {m : Flow.Module} : compile options source = .ok m →
      Loaded options (.ofModule m)
  | session {s : Session} : Session.Reached options s → Loaded options s.program

namespace Loaded

variable {options : Options}

theorem linked (h : Loaded options p) : ∃ exports, Linked options.fault p exports := by
  cases h with
  | compiled hcompile =>
    obtain ⟨tree, -, hcompile⟩ := except_bind_ok hcompile
    obtain ⟨emission, htree, hm⟩ := except_bind_ok hcompile
    cases hm
    exact ⟨_, linked_of_compileTree htree⟩
  | session hreached => exact ⟨_, hreached.linked.2⟩

/-- The names of the functions differ. -/
theorem distinct (h : Loaded options p) : p.names.Nodup := by
  have hempty : Program.empty.names.Nodup := .nil
  cases h with
  | compiled => exact Program.nodup_link hempty _
  | session hreached =>
    induction hreached with
    | start => exact hempty
    | unit _ hcompile ih =>
      obtain ⟨tree, -, hcompile⟩ := except_bind_ok hcompile
      obtain ⟨emission, -, hcompile⟩ := except_bind_ok hcompile
      cases hcompile
      exact Program.nodup_link ih _

end Loaded

/-- Compiled programs never go wrong: a run of a function, called with as many integers as it has
parameters, ends well, with a fault of that function, or for lack of fuel. -/
theorem Loaded.run_safe {options : Options} (h : Loaded options p) {f : Flow.Function}
    (hf : f ∈ p.functions) {arguments : List Int64} (hcount : arguments.length = f.params.length)
    (fuel : Nat) : EndsSafely f.name options.fault.code fuel (p.run f.name arguments fuel) := by
  obtain ⟨exports, hlinked⟩ := h.linked
  obtain ⟨definition?, hsourced⟩ := exists_sourced hlinked
  exact (hsourced.preserves (find?_of_distinct h.distinct hf rfl) hcount).safe fuel

/-- A session in which a function divides, and a later unit calls it. A call of the first function may
end with its fault, one of the second function takes it. -/
theorem run_safe_division : ∃ s : Session, Session.Reached Options.default s ∧
    (∀ fuel, EndsSafely "f" Options.default.fault.code fuel (s.program.run "f" [1, 0] fuel)) ∧
    s.program.run "f" [1, 0] 50 = .error (.uncaughtFault "f" Options.default.fault.code) ∧
    (∀ fuel, EndsSafely "g" Options.default.fault.code fuel (s.program.run "g" [1] fuel)) ∧
    (s.program.run "g" [1] 50).toOption.map Execution.value = some 0 := by
  obtain ⟨⟨emission, s⟩, hsession, hs⟩ := exists_ok_of_map
    (f := fun r : Emission × Session => (r.2.program.functions.map fun f => (f.name, f.params.length),
      r.2.program.run "f" [1, 0] 50, (r.2.program.run "g" [1] 50).toOption.map Execution.value))
    (x := (Session.start Options.default 50).compileUnit "fn f(a, b)\n  return a / b\n" >>=
      fun r => r.2.compileUnit "fn g(a)\n  return f(a, 0) + 1\n")
    (b := ([("f", 2), ("g", 1)], .error (.uncaughtFault "f" Options.default.fault.code), some 0))
    (by decide +kernel)
  obtain ⟨⟨first, s₁⟩, hfirst, hsecond⟩ := except_bind_ok hsession
  have hreached : Session.Reached Options.default s := .unit (.unit (.start 50) hfirst) hsecond
  obtain ⟨hfunctions, hfault, hvalue⟩ : _ ∧ _ ∧ _ := by simpa only [Prod.mk.injEq] using hs
  have hsafe : ∀ {name arguments}, (name, arguments.length) ∈ [("f", 2), ("g", 1)] → ∀ fuel,
      EndsSafely name Options.default.fault.code fuel (s.program.run name arguments fuel) := by
    intro name arguments hmem
    rw [← hfunctions] at hmem
    obtain ⟨f, hf, hsignature⟩ := List.mem_map.1 hmem
    obtain ⟨rfl, hparams⟩ := Prod.mk.inj hsignature
    exact (Loaded.session hreached).run_safe hf hparams.symm
  exact ⟨s, hreached, hsafe (by simp), hfault, hsafe (by simp), hvalue⟩

end Abacus.Meaning
