import Abacus.Digest.Fingerprint
import Abacus.Proofs.Pairing.Functions
import Abacus.Proofs.Session.Histories

/-!
# Functions are lowered on their own

What a definition is lowered to depends on the definition and on the signatures of the functions that
it calls, and on nothing else: not on the other items of the unit, on the other functions that are
known, on places, or on the names of units.

* `knownAt` — the functions that are known at a definition of a unit;
* `lowerUnit_at` — what is lowered at a definition of a unit;
* `lowerUnit_local` — two units that contain the same definition.
-/

namespace Abacus.Lowering

open Abacus.Flow (Function)

/-- The functions that are known behind the items `before` of a unit: those that earlier units export,
and those of the definitions among the items. -/
def knownAt (exports : List Export) (emission : Emission) (before : List Tree) : List Export :=
  exports ++ emission.exports.take (before.countP Meaning.isDefinition)

section

variable {options : Options} {config : FaultConfig} {known exports es : List Export}
  {unitName name : String} {tree : Tree} {emission : Emission} {items before after : List Tree}
  {fs : List Function} {span : Span} {parameters : List String} {body : Tree}

/-- Each definition is exported. -/
theorem Lowers.length_exports (h : Lowers config known items fs es) :
    es.length = items.countP Meaning.isDefinition := by
  induction h with
  | nil => rfl
  | function _ _ ih => rw [List.countP_cons_of_pos rfl, List.length_cons, ih]
  | statement hstatement _ ih => simp [hstatement, ih]

/-- In a unit that is lowered, a definition is lowered where the definitions before it are known. -/
theorem lowerUnit_at (h : lowerUnit options exports unitName (some tree) = .ok emission)
    (hitems : tree.items = before ++ .node span (.fnDef name parameters body) :: after) :
    ∃ symbols f entry symbols', symbols.Tabulates (knownAt exports emission before) ∧
      lowerFunction options symbols span name parameters body = .ok (f, entry, symbols') ∧
      f ∈ emission.module.functions ∧ entry ∈ emission.exports := by
  obtain ⟨start, himport, h⟩ := except_bind_ok h
  obtain ⟨last, hfold, h⟩ := except_bind_ok h
  rw [hitems, List.foldlM_append] at hfold
  obtain ⟨mid, hbefore, hfold⟩ := except_bind_ok hfold
  rw [List.foldlM_cons] at hfold
  obtain ⟨next, hitem, hafter⟩ := except_bind_ok hfold
  obtain ⟨fs, es, hlowers, -, hes, -, htable⟩ :=
    lowerItems_lowers (importExports_tabulates himport) hbefore
  obtain ⟨⟨f, entry, symbols'⟩, hlower, hnext⟩ := except_bind_ok hitem
  cases hnext
  obtain ⟨-, -, -, htable'⟩ := lowerFunction_compiled htable hlower
  obtain ⟨fs', es', -, hfs', hes', -, -⟩ := lowerItems_lowers htable' hafter
  have hexports : last.exports.toList = es ++ entry :: es' := by
    rw [hes', Array.toList_push, hes]
    simp
  have hf : f ∈ last.functions.toList := by
    rw [hfs', Array.toList_push]
    simp
  -- The top-level statements add a function, and nothing is exported for them.
  obtain ⟨hemission, hfunctions⟩ : emission.exports = last.exports.toList ∧
      f ∈ emission.module.functions := by
    split at h
    · cases h
      exact ⟨rfl, hf⟩
    · obtain ⟨g, -, h⟩ := except_bind_ok h
      cases h
      exact ⟨rfl, by simpa using .inl (by simpa using hf)⟩
  refine ⟨mid.symbols, f, entry, symbols', ?_, hlower, hfunctions, ?_⟩
  · have hknown : knownAt exports emission before = exports ++ es := by
      rw [knownAt, hemission, hexports, ← hlowers.length_exports, List.take_left]
    rwa [hknown]
  · rw [hemission, hexports]
    simp

/-- What has a name of its own is found under it. -/
theorem find?_of_distinct {α : Type} {key : α → String} {l : List α} (h : (l.map key).Nodup) {a : α}
    (ha : a ∈ l) (hname : key a = name) : l.find? (key · = name) = some a := by
  cases hfind : l.find? (key · = name) with
  | none => exact absurd hname (by simpa using List.find?_eq_none.1 hfind a ha)
  | some b =>
    have hb : key b = name := by simpa using List.find?_some hfind
    rw [List.inj_on_of_nodup_map h (List.mem_of_find?_eq_some hfind) ha (hb.trans hname.symm)]

/-- The names of the functions of a unit differ, and so do those of its exports. -/
theorem lowerUnit_distinct (h : lowerUnit options exports unitName (some tree) = .ok emission) :
    (emission.module.functions.map Function.name).Nodup ∧
      (emission.exports.map Export.name).Nodup := by
  obtain ⟨start, himport, -⟩ := except_bind_ok h
  have hexports := (importExports_tabulates himport).distinct
  have hlowers := lowerUnit_lowers h
  refine ⟨(List.nodup_append.1 (hlowers.distinct hexports)).2.1, ?_⟩
  have hall := (hlowers.compiled hexports).1
  rw [List.map_append] at hall
  exact (List.nodup_append.1 hall).2.1

end

variable {fault : FaultConfig} {verify verify' : Bool} {exports exports' : List Export}
  {unitName unitName' : String} {tree tree' : Tree} {emission emission' : Emission}
  {before after before' after' : List Tree} {span span' : Span} {name : String}
  {parameters : List String} {body body' : Tree}

/-- The same definition in two units that are lowered with the same fault codes: if the functions that
its body calls stand for the same at both, it becomes the same function, with the same hash, which is
exported with the same arity and the same fault flag. -/
theorem lowerUnit_local
    (h : lowerUnit ⟨fault, verify⟩ exports unitName (some tree) = .ok emission)
    (h' : lowerUnit ⟨fault, verify'⟩ exports' unitName' (some tree') = .ok emission')
    (hitems : tree.items = before ++ .node span (.fnDef name parameters body) :: after)
    (hitems' : tree'.items = before' ++ .node span' (.fnDef name parameters body') :: after')
    (hbody : body.unplaced = body'.unplaced)
    (hcalls : ∀ callee ∈ calledNames body, callee ≠ name →
      meaning? (knownAt exports emission before) callee =
        meaning? (knownAt exports' emission' before') callee) :
    ∃ f entry, emission.module.functions.find? (·.name = name) = some f ∧
      emission'.module.functions.find? (·.name = name) = some f ∧
      (name, f.digest) ∈ emission.module.functionDigests ∧
      (name, f.digest) ∈ emission'.module.functionDigests ∧
      emission.exports.find? (·.name = name) = some entry ∧
      emission'.exports.find? (·.name = name) = some entry ∧ entry.arity = parameters.length := by
  obtain ⟨symbols, f, entry, closed, ht, hlower, hf, hentry⟩ := lowerUnit_at h hitems
  obtain ⟨symbols', f', entry', closed', ht', hlower', hf', hentry'⟩ := lowerUnit_at h' hitems'
  rw [lowerFunction_verify] at hlower hlower'
  obtain ⟨b, hcompiled, hexported, -⟩ := lowerFunction_compiled ht hlower
  obtain ⟨b', hcompiled', -, -⟩ := lowerFunction_compiled ht' hlower'
  -- The name of the function is new at both places.
  have hnew : ∀ {known : List Export}, name ∉ known.map Export.name → meaning? known name = none := by
    intro known hname
    rw [meaning?, Option.map_eq_none_iff, List.find?_eq_none]
    exact fun e he => by simpa using fun heq => hname (List.mem_map.2 ⟨e, he, heq⟩)
  have hnone := hnew hcompiled.distinct.2
  have hnone' := hnew hcompiled'.distinct.2
  have hagree := lowerFunction_agree ⟨fault, false⟩ ht ht' span span' name parameters hbody
    (by rw [hnone, hnone']) fun callee hcallee => by
      by_cases hname : callee = name
      · rw [hname, hnone, hnone']
      · exact hcalls callee hcallee hname
  rw [hlower, hlower'] at hagree
  obtain ⟨rfl, rfl⟩ : f = f' ∧ entry = entry' := by
    cases hagree with
    | ok hsame => exact hsame
  have hname : f.name = name := hcompiled.name
  obtain ⟨hfunctions, hexports⟩ := lowerUnit_distinct h
  obtain ⟨hfunctions', hexports'⟩ := lowerUnit_distinct h'
  refine ⟨f, entry, find?_of_distinct hfunctions hf hname, find?_of_distinct hfunctions' hf' hname,
    List.mem_map.2 ⟨f, hf, by rw [hname]⟩, List.mem_map.2 ⟨f, hf', by rw [hname]⟩,
    find?_of_distinct hexports hentry (by rw [hexported]),
    find?_of_distinct hexports' hentry' (by rw [hexported]), by rw [hexported]⟩

/-- A definition of `f` that calls `g` and the circle constant, with all of it at one place. -/
def callsBoth (span : Span) : Tree :=
  let call (name : String) (arguments : List Tree) : Tree :=
    .node span (.call name (.node span (.list arguments)))
  .node span (.fnDef "f" ["x"] (.node span (.list [.node span (.giveBack
    (.node span (.infixOp .add (call "g" [.node span (.ident "x")]) (call "pi" []))))])))

/-- A definition of `g` that divides. -/
def divides (span : Span) : Tree :=
  .node span (.fnDef "g" ["a"] (.node span (.list [.node span (.giveBack (.node span
    (.infixOp .div (.node span (.integer 1)) (.node span (.ident "a")))))])))

/-- A function that calls one of an earlier unit, and the same function behind the one that it calls. -/
theorem local_to_calls : ∃ emission emission' f,
    lowerUnit ⟨.default, true⟩ [⟨"h", 0, false⟩, ⟨"g", 1, true⟩] "main"
      (some (.node Span.none (.program [callsBoth ⟨1, 2, 3, 4⟩]))) = .ok emission ∧
    lowerUnit ⟨.default, false⟩ [] "other" (some (.node Span.none (.program
      [divides Span.none, callsBoth Span.none, .node Span.none (.integer 1)]))) = .ok emission' ∧
    emission.module.functions.find? (·.name = "f") = some f ∧
    emission'.module.functions.find? (·.name = "f") = some f := by
  obtain ⟨emission, h, hexports⟩ := exists_ok_of_map (f := Emission.exports)
    (b := [⟨"f", 1, false⟩])
    (x := lowerUnit ⟨.default, true⟩ [⟨"h", 0, false⟩, ⟨"g", 1, true⟩] "main"
      (some (.node Span.none (.program [callsBoth ⟨1, 2, 3, 4⟩])))) (by decide +kernel)
  obtain ⟨emission', h', hexports'⟩ := exists_ok_of_map (f := Emission.exports)
    (b := [⟨"g", 1, true⟩, ⟨"f", 1, false⟩])
    (x := lowerUnit ⟨.default, false⟩ [] "other" (some (.node Span.none (.program
      [divides Span.none, callsBoth Span.none, .node Span.none (.integer 1)])))) (by decide +kernel)
  have hitems : (Tree.node Span.none (.program [callsBoth ⟨1, 2, 3, 4⟩])).items =
      [] ++ callsBoth ⟨1, 2, 3, 4⟩ :: [] := rfl
  have hitems' : (Tree.node Span.none (.program
      [divides Span.none, callsBoth Span.none, .node Span.none (.integer 1)])).items =
      [divides Span.none] ++ callsBoth Span.none :: [.node Span.none (.integer 1)] := rfl
  obtain ⟨f, entry, hf, hf', -⟩ := lowerUnit_local h h' hitems hitems' rfl (by
    rw [knownAt, knownAt, hexports, hexports']
    decide +kernel)
  exact ⟨emission, emission', f, h, h', hf, hf'⟩

end Abacus.Lowering
