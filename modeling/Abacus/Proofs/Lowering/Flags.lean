import Abacus.Proofs.Lowering.Linking
import Abacus.Proofs.Machine.Escaping

/-!
# Fault flags

The fault flag with which a function is exported says whether the function raises a fault somewhere,
and a function without it lets no fault escape, whatever it calls.

* `Compiled.careful` — a function that has been lowered is ready for the faults that it may meet;
* `Linked.careful` — so are all functions of a linked program;
* `flags_exact_and_sound` — what the flags of the exports say.
-/

namespace Abacus.Machine.Program

/-- In no run of the program an activation of a function of the given name ends with a fault. -/
def Contains (p : Program) (name : String) : Prop :=
  ∀ (entry : String) (arguments : List Int64) (fuel : Nat) (stack : Stack) (tally : Tally),
    p.Reaches entry arguments fuel stack tally →
    ∀ (depth : Nat) (frame : Frame) (fault : Fault) (tally' : Tally),
      Finishes p fuel stack tally depth frame (.unwinding fault) tally' → frame.function.name ≠ name

end Abacus.Machine.Program

namespace Abacus.Lowering

open Abacus.Flow (Function Value Block)
open Abacus.Machine (Program)
open Plan

section

variable {config : FaultConfig} {opened closed : SymbolTable} {routine : Routine} {b : Bool} {ω : Plan}

/-- Control comes to the block from one block only. -/
theorem Plan.OneWay.only {c q : Block} (h : ω.OneWay c q) (hω : ω.Sound) :
    c ≠ Function.entry ∧ ∀ q', c ∈ ω.builder.function.successors q' → q' = q := by
  have hpreds := h.preds
  refine ⟨?_, fun q' hq' => ?_⟩
  · rintro rfl
    rw [hω.start.2] at hpreds
    cases hpreds
  · have hmem := (hω.record.edges.mem q' c).1 hq'
    change q' ∈ ω.builder.preds c at hmem
    rw [hpreds] at hmem
    exact List.mem_singleton.1 hmem

/-- Control does not come to where a fault of another type is passed on. -/
theorem Plan.Fenced.shut {q : Block} (h : Fenced config ω q) (hω : ω.Sound) :
    ω.builder.function.Shut config.typeId q := by
  obtain ⟨sites, pad, selector, typeId, isOurs, hlanding, hcleanup, rfl⟩ := h
  obtain ⟨hstart, honly⟩ := hcleanup.only hω
  obtain ⟨hstart', honly'⟩ := hlanding.toFaulted.only hω
  exact .behind hstart honly (.refused hstart' honly' hlanding.branches.terminator hlanding.apart
    (congrArg Flow.ValueInfo.inst hlanding.compares.info)
    (congrArg Flow.ValueInfo.inst hlanding.selects.info)
    (congrArg Flow.ValueInfo.inst hlanding.pads.info)
    (congrArg Flow.ValueInfo.inst hlanding.types.info))

/-- A function raises a fault somewhere if and only if it has been lowered with the fault flag. -/
theorem Compiled.raises_iff {known : List Export} {f : Function}
    (h : Compiled config known routine b f) : f.Raises ↔ b = true := by
  obtain ⟨htable, hmade, rfl⟩ := h
  exact hmade.raises_iff htable.global

/-- A function that has been lowered is ready for the faults that it may meet. -/
theorem Compiled.careful {known : List Export} {f : Function} {mayRaise : String → Prop}
    (h : Compiled config known routine b f) (hself : f.Raises → mayRaise routine.name)
    (hknown : ∀ e ∈ known, e.mayFault = false → ¬ mayRaise e.name) :
    f.Careful config.typeId mayRaise := by
  have hname := h.name
  obtain ⟨htable, hmade, rfl⟩ := h
  have hω := hmade.closed.1
  constructor
  case resumes => exact fun hq => (hmade.fenced htable.global hq).shut hω
  case raises =>
    intro q v hq
    exact ⟨hname ▸ hself ⟨q, v, hq⟩, _, (hmade.raised htable.global hq).2⟩
  case calls =>
    intro q v callee arguments hv hcall
    obtain ⟨id, arity, hlookup⟩ := hmade.calls htable.global hv hcall
    obtain ⟨e, he, rfl, hbinding⟩ := htable.export_of_lookup hlookup
    rcases List.mem_append.1 he with he | he
    · exact .inr (hknown e he (by simpa [Export.binding] using (Binding.function.inj hbinding).2.symm))
    · rw [List.mem_singleton.1 he]
      exact .inl hname.symm

end

variable {config : FaultConfig} {p : Program} {exports : List Export}

/-- What the fault flags of the exports say about the functions of a program. -/
structure Flags (p : Program) (exports : List Export) : Prop where
  exact : ∀ e ∈ exports, ∃ f, p.get? e.name = some f ∧ (e.mayFault = true ↔ f.Raises)
  sound : ∀ e ∈ exports, e.mayFault = false → p.Contains e.name

/-- The flag of an exported function says whether the function raises a fault somewhere. -/
theorem Linked.exact (h : Linked config p exports) {e : Export} (he : e ∈ exports) :
    ∃ f, p.get? e.name = some f ∧ (e.mayFault = true ↔ f.Raises) := by
  obtain ⟨f, hf⟩ := h.exported e he
  obtain ⟨known, routine, b, hcompiled, -, -, hexports⟩ := h.compiled hf
  refine ⟨f, hf, ?_⟩
  rw [hcompiled.raises_iff, hexports e he rfl]

/-- The functions of a linked program are ready for the faults that they may meet. -/
theorem Linked.careful (h : Linked config p exports) {name : String} {f : Function}
    (hf : p.get? name = some f) : f.name = name ∧
      f.Careful config.typeId fun name => ∃ g, p.get? name = some g ∧ g.Raises := by
  obtain ⟨known, routine, b, hcompiled, rfl, hknown, -⟩ := h.compiled hf
  refine ⟨hcompiled.name, hcompiled.careful (fun hraises => ⟨f, hf, hraises⟩) fun e he hflag => ?_⟩
  rintro ⟨g, hg, hraises⟩
  obtain ⟨g', hg', hexact⟩ := h.exact (hknown he)
  obtain rfl : g' = g := Option.some.inj (hg'.symm.trans hg)
  rw [hexact.2 hraises] at hflag
  cases hflag

/-- A function without the fault flag lets no fault escape. -/
theorem Linked.contains (h : Linked config p exports) {e : Export} (he : e ∈ exports)
    (hflag : e.mayFault = false) : p.Contains e.name := by
  intro entry arguments fuel stack tally hreaches depth frame fault tally' hfinishes hname
  obtain ⟨f, hf, hraises⟩ :=
    hfinishes.mayRaise_of_unwinding h.careful (hreaches.guarded h.careful) rfl
  obtain ⟨g, hg, hexact⟩ := h.exact he
  obtain rfl : g = f := Option.some.inj (hg.symm.trans (hname ▸ hf))
  rw [hexact.2 hraises] at hflag
  cases hflag

theorem Linked.flags (h : Linked config p exports) : Flags p exports where
  exact _ he := h.exact he
  sound _ he := h.contains he

/-- The flags of the exports of one unit and its own functions. -/
theorem UnitLowers.exact {unitName : String} {items : List Tree} {emission : Emission}
    (h : UnitLowers config exports unitName items emission)
    (hexports : (exports.map Export.name).Nodup) {e : Export} (he : e ∈ emission.exports) :
    (∃ f ∈ emission.module.functions, f.name = e.name) ∧
      ∀ f ∈ emission.module.functions, f.name = e.name → (e.mayFault = true ↔ f.Raises) := by
  obtain ⟨-, hfunctions, hexported⟩ := h.compiled hexports
  refine ⟨hexported e he, fun f hf hname => ?_⟩
  obtain ⟨known, routine, b, hcompiled, -, hflag, -⟩ := hfunctions f hf
  rw [hcompiled.raises_iff,
    hflag e (List.mem_append_right _ he) (hname.symm.trans hcompiled.name)]

/-- Fault flags are exact and sound: in the module of a unit, whatever was known to it, in the program
of a unit that has been compiled alone, and in the program of a session. -/
theorem flags_exact_and_sound (options : Options) :
    (∀ {exports : List Export} {unitName : String} {tree : Tree} {emission : Emission},
      compileTree options exports unitName tree = .ok emission → ∀ e ∈ emission.exports,
        (∃ f ∈ emission.module.functions, f.name = e.name) ∧
        ∀ f ∈ emission.module.functions, f.name = e.name → (e.mayFault = true ↔ f.Raises)) ∧
    (∀ {unitName : String} {tree : Tree} {emission : Emission},
      compileTree options [] unitName tree = .ok emission →
        Flags (Program.ofModule emission.module) emission.exports) ∧
    ∀ {s : Session}, Session.Reached options s → Flags s.program s.exports := by
  refine ⟨fun h e he => ?_, fun h => (linked_of_compileTree h).flags, fun h => h.linked.2.flags⟩
  have hlower := compileTree_ok h
  obtain ⟨symbols, himport, -⟩ := except_bind_ok hlower
  exact (lowerUnit_lowers hlower).exact (importExports_tabulates himport).distinct he

/-- A function that divides, and one that calls it, in one unit and in two: only the first function
may raise a fault. -/
theorem flags_of_division : ∃ (tree : Tree) (emission : Emission) (s : Session),
    compileTree Options.default [] defaultUnitName tree = .ok emission ∧
    Session.Reached Options.default s ∧
    emission.exports = [⟨"f", 2, true⟩, ⟨"g", 1, false⟩] ∧
    s.exports = [⟨"f", 2, true⟩, ⟨"g", 1, false⟩] ∧
    (∃ f ∈ emission.module.functions, f.name = "f" ∧ f.Raises) ∧
    (Program.ofModule emission.module).Contains "g" ∧ s.program.Contains "g" := by
  obtain ⟨emission, hcompile, hexports⟩ := exists_ok_of_map (f := Emission.exports)
    (x := parse "fn f(a, b)\n  a / b\n\nfn g(a)\n  f(a, 2)\n" >>=
      compileTree Options.default [] defaultUnitName)
    (b := [⟨"f", 2, true⟩, ⟨"g", 1, false⟩]) (by decide +kernel)
  obtain ⟨tree, -, hcompile⟩ := except_bind_ok hcompile
  obtain ⟨⟨second, s⟩, hsession, hs⟩ := exists_ok_of_map (f := fun r => r.2.exports)
    (x := (Session.start Options.default 100).compileUnit "fn f(a, b)\n  a / b\n" >>=
      fun r => r.2.compileUnit "fn g(a)\n  f(a, 2)\n")
    (b := [⟨"f", 2, true⟩, ⟨"g", 1, false⟩]) (by decide +kernel)
  obtain ⟨⟨first, s₁⟩, hfirst, hsecond⟩ := except_bind_ok hsession
  have hreached : Session.Reached Options.default s := .unit (.unit (.start 100) hfirst) hsecond
  obtain ⟨hmodule, halone, hlinked⟩ := flags_exact_and_sound Options.default
  refine ⟨tree, emission, s, hcompile, hreached, hexports, hs, ?_, ?_, ?_⟩
  · obtain ⟨⟨f, hf, hname⟩, hexact⟩ := hmodule hcompile ⟨"f", 2, true⟩ (by simp [hexports])
    exact ⟨f, hf, hname, (hexact f hf hname).1 rfl⟩
  · exact (halone hcompile).sound ⟨"g", 1, false⟩ (by simp [hexports]) rfl
  · exact (hlinked hreached).sound ⟨"g", 1, false⟩ (by rw [show s.exports = _ from hs]; simp) rfl

end Abacus.Lowering
