import Abacus.Proofs.Lowering.Linking

/-!
# Calls of a unit

The functions of a unit have names of their own, and each of them calls itself, what is exported to the
unit, or a function before it, with as many integers as that has parameters. Where the function called may
raise a fault the call ends its block. Otherwise it is an instruction like others, and so are calls of the
function itself, whatever will be found out about its faults.

* `Function.Inside`, `Function.AtEnd` — where a call stands;
* `Function.Links` — a call among functions that are known;
* `Compiled.links` — the calls of a function that has been lowered;
* `Emission.Consistent`, `calls_consistent` — names, exports and calls of a unit.
-/

namespace Abacus.Flow.Function

/-- The value stands among the instructions of one block, once, and at the end of none. -/
structure Inside (f : Function) (v : Value) : Prop where
  insts : ∃ b, (f.block b).insts.toList.count v = 1 ∧ ∀ c, c ≠ b → v ∉ (f.block c).insts
  ends : ∀ c normal unwind, (f.block c).terminator? ≠ some (.invoke v normal unwind)

/-- The value is the call at the end of one block, and stands among no instructions. -/
structure AtEnd (f : Function) (v : Value) : Prop where
  ends : ∃ b, (∃ normal unwind, (f.block b).terminator? = some (.invoke v normal unwind)) ∧
    ∀ c normal unwind, (f.block c).terminator? = some (.invoke v normal unwind) → c = b
  insts : ∀ c, v ∉ (f.block c).insts

end Abacus.Flow.Function

namespace Abacus

open Abacus.Flow (Value)
open Abacus.Lowering (Export)

/-- The function that is called is a known one or the function itself, and gets as many integers as it
has parameters. The call ends a block if a known function is called that may raise a fault. -/
def Flow.Function.Links (f : Flow.Function) (known : List Export) (v : Value) (callee : String)
    (arguments : List Value) : Prop :=
  (∀ u ∈ arguments, (f.value u).ty = .int) ∧
    ∃ e ∈ known ++ [⟨f.name, f.params.length, false⟩], e.name = callee ∧
      arguments.length = e.arity ∧ if e.mayFault then f.AtEnd v else f.Inside v

/-! What can be seen of a function from outside: its name and the number of its parameters. -/

def Flow.Function.signature (f : Flow.Function) : String × Nat := (f.name, f.params.length)

def Lowering.Export.signature (e : Export) : String × Nat := (e.name, e.arity)

def Tree.signature? : Tree → Option (String × Nat)
  | .node _ (.fnDef name parameters _) => some (name, parameters.length)
  | _ => none

end Abacus

namespace Abacus.Lowering

open Abacus.Flow (Value Block Function)
open Plan

variable {config : FaultConfig} {known exports es : List Export} {routine : Routine} {b : Bool}
  {f : Function} {fs : List Function} {items : List Tree} {unitName : String} {emission : Emission}

/-! ## Calls of a function -/

namespace Plan

variable {σ : Plan} {q : Block} {v : Value}

theorem Sound.inside (hσ : σ.Sound) (hv : v ∈ (σ.builder.info q).insts) :
    σ.builder.function.Inside v where
  insts := by
    have honce := hσ.record.once q
    rw [hσ.insts, List.nodup_append] at honce
    refine ⟨q, List.count_eq_one_of_mem honce.1 (Array.mem_toList_iff.2 hv), fun c hc hmem => hc ?_⟩
    exact (hσ.block_of_listed (hσ.mem_instsOf.2 (.inl hmem))).symm.trans
      (hσ.block_of_listed (hσ.mem_instsOf.2 (.inl hv)))
  ends _ _ _ := hσ.ne_end_of_inst hv

theorem Sound.atEnd {normal unwind : Block} (hσ : σ.Sound)
    (hq : σ.terminator? q = some (.invoke v normal unwind)) : σ.builder.function.AtEnd v where
  ends := by
    refine ⟨q, ⟨normal, unwind, hq⟩, fun c normal' unwind' hc => ?_⟩
    exact (hσ.block_of_listed (hσ.mem_instsOf.2 (.inr ⟨normal', unwind', hc⟩))).symm.trans
      (hσ.block_of_listed (hσ.mem_instsOf.2 (.inr ⟨normal, unwind, hq⟩)))
  insts _ hmem := hσ.ne_end_of_inst hmem hq

end Plan

/-- The calls of a function that has been lowered where some functions were known. -/
theorem Compiled.links (h : Compiled config known routine b f) {v : Value} {callee : String}
    {arguments : List Value} (hcall : f.inst v = .call callee arguments) :
    f.Links known v callee arguments := by
  have hname := h.name
  have hparams := h.params
  obtain ⟨htable, hmade, rfl⟩ := h
  obtain ⟨htypes, id, mayFault, hlookup, hstands⟩ := hmade.guarded htable.global hcall
  obtain ⟨e, he, hcallee, hbinding⟩ := htable.export_of_lookup hlookup
  obtain ⟨harity, hfault⟩ := Binding.function.inj hbinding
  refine ⟨htypes, e, by rwa [hname, hparams], hcallee, harity, ?_⟩
  -- While its body is lowered, the function itself is known as one without faults.
  have hω := hmade.closed.1
  rw [← hfault]
  cases mayFault with
  | true =>
    obtain ⟨q, normal, unwind, hq⟩ := hstands
    exact hω.atEnd hq
  | false =>
    obtain ⟨q, hv⟩ := hstands
    exact hω.inside hv

/-! ## Units -/

theorem Compiled.signature (h : Compiled config known routine b f) :
    f.signature = (routine.name, routine.arity) := Prod.ext h.name h.params

theorem signature?_of_not_isDefinition {item : Tree} (h : Meaning.isDefinition item = false) :
    item.signature? = none := by
  obtain ⟨span, shape⟩ := item
  cases shape <;> first | rfl | cases h

/-- Definitions, functions and exports stand in the same order. -/
theorem Lowers.signatures (h : Lowers config known items fs es) :
    fs.map Function.signature = es.map Export.signature ∧
      es.map Export.signature = items.filterMap Tree.signature? := by
  induction h with
  | nil => exact ⟨rfl, rfl⟩
  | function hcompiled _ ih =>
    obtain ⟨hfs, hes⟩ := ih
    exact ⟨List.cons_eq_cons.2 ⟨hcompiled.signature, hfs⟩, congrArg _ hes⟩
  | statement hitem _ ih =>
    rw [List.filterMap_cons_none (signature?_of_not_isDefinition hitem)]
    exact ih

/-- A function knows what is exported to the unit and the functions before it. -/
theorem Lowers.links (h : Lowers config known items fs es) {i : Nat} (hf : fs[i]? = some f) {v : Value}
    {callee : String} {arguments : List Value} (hcall : f.inst v = .call callee arguments) :
    f.Links (known ++ es.take i) v callee arguments := by
  induction h generalizing i with
  | nil => cases hf
  | function hcompiled _ ih =>
    cases i with
    | zero =>
      cases hf
      rw [List.take_zero, List.append_nil]
      exact hcompiled.links hcall
    | succ i =>
      have hlinks := ih hf
      rwa [List.append_assoc, List.singleton_append, ← List.take_succ_cons] at hlinks
  | statement _ _ ih => exact ih hf

/-- How the parts of a unit fit together. No name is given twice, also not one that is exported to the
unit. What the unit exports are its definitions, in order. Its functions are these, and behind them that
of its other statements if it has any. Each of them calls itself, what is exported to the unit, and
functions before it. -/
structure Emission.Consistent (exports : List Export) (unitName : String) (items : List Tree)
    (emission : Emission) : Prop where
  distinct : (exports.map Export.name ++ emission.module.functions.map Function.name).Nodup
  definitions : emission.exports.map Export.signature = items.filterMap Tree.signature?
  functions : emission.module.functions.map Function.signature =
    emission.exports.map Export.signature ++ emission.unit?.toList.map (·, 0)
  unit : emission.unit? = if items.all Meaning.isDefinition then none else some unitName
  calls : ∀ {i : Nat} {f : Function}, emission.module.functions[i]? = some f →
    ∀ {v : Value} {callee : String} {arguments : List Value}, f.inst v = .call callee arguments →
      f.Links (exports ++ emission.exports.take i) v callee arguments

theorem names_of_signatures (h : fs.map Function.signature = es.map Export.signature) :
    fs.map Function.name = es.map Export.name := by
  have hfirst := congrArg (List.map Prod.fst) h
  rwa [List.map_map, List.map_map] at hfirst

theorem filter_isDefinition_eq_nil :
    items.filter (fun item => !Meaning.isDefinition item) = [] ↔ items.all Meaning.isDefinition := by
  simp [List.filter_eq_nil_iff]

theorem UnitLowers.consistent (h : UnitLowers config exports unitName items emission)
    (hexports : (exports.map Export.name).Nodup) : emission.Consistent exports unitName items := by
  cases h with
  | definitions hlowers hnone =>
    obtain ⟨hfs, hes⟩ := hlowers.signatures
    exact
      { distinct := by
          rw [names_of_signatures hfs, ← List.map_append]
          exact hlowers.distinct hexports
        definitions := hes
        functions := hfs.trans (List.append_nil _).symm
        unit := (if_pos (filter_isDefinition_eq_nil.1 hnone)).symm
        calls := fun hf _ _ _ hcall => hlowers.links hf hcall }
  | @statements fs es b g hlowers hsome hcompiled =>
    obtain ⟨hfs, hes⟩ := hlowers.signatures
    have hlength : fs.length = es.length := by simpa using congrArg List.length hfs
    exact
      { distinct := by
          rw [List.map_append, names_of_signatures hfs, ← List.append_assoc, ← List.map_append,
            List.nodup_append]
          refine ⟨hlowers.distinct hexports, by simp, fun a ha c hc hac => ?_⟩
          obtain rfl : c = g.name := by simpa using hc
          exact hcompiled.distinct.2 (hcompiled.name ▸ hac ▸ ha)
        definitions := hes
        functions := by
          rw [List.map_append, hfs]
          exact congrArg _ (congrArg (· :: []) hcompiled.signature)
        unit := (if_neg (mt filter_isDefinition_eq_nil.2 hsome)).symm
        calls := by
          intro i f hf v callee arguments hcall
          rcases Nat.lt_or_ge i fs.length with hi | hi
          · rw [List.getElem?_append_left hi] at hf
            exact hlowers.links hf hcall
          · -- The function of the statements knows all of the others.
            rw [List.getElem?_append_right hi] at hf
            obtain rfl : f = g := by
              cases hk : i - fs.length with
              | zero => simpa [hk, eq_comm] using hf
              | succ k => simp [hk] at hf
            rw [List.take_of_length_le (hlength ▸ hi)]
            exact hcompiled.links hcall }

/-- Whatever a unit is made of: if it is lowered, its parts fit together. -/
theorem calls_consistent {options : Options} {tree? : Option Tree}
    (h : lowerUnit options exports unitName tree? = .ok emission) :
    ∃ tree, tree? = some tree ∧ emission.Consistent exports unitName tree.items := by
  obtain ⟨symbols, himport, hlower⟩ := except_bind_ok h
  cases tree? with
  | none => cases hlower
  | some tree =>
    exact ⟨tree, rfl, (lowerUnit_lowers h).consistent (importExports_tabulates himport).distinct⟩

/-- A unit that calls a function with a handler, a plain one of an earlier unit, and itself. -/
theorem calls_consistent_recursive :
    let source := "fn part(n) return one() / n\nfn down(n)\n  if n return down(part(n))\ndown(6)\n"
    ∃ tree emission, parse source = .ok tree ∧
      lowerUnit .default [⟨"one", 0, false⟩] "main" (some tree) = .ok emission ∧
      emission.exports = [⟨"part", 1, true⟩, ⟨"down", 1, false⟩] ∧
      emission.Consistent [⟨"one", 0, false⟩] "main" tree.items := by
  intro source
  obtain ⟨tree, hparse, hlower⟩ := exists_ok_of_map (x := parse source)
    (f := fun tree => (lowerUnit .default [⟨"one", 0, false⟩] "main" (some tree)).toOption.map
      Emission.exports)
    (b := some [⟨"part", 1, true⟩, ⟨"down", 1, false⟩]) (by decide +kernel)
  obtain ⟨emission, hlower, hexports⟩ := exists_ok_of_map hlower
  obtain ⟨tree', htree, hconsistent⟩ := calls_consistent hlower
  cases htree
  exact ⟨tree, emission, hparse, hlower, hexports, hconsistent⟩

end Abacus.Lowering
