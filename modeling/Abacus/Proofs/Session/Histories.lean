import Abacus.Proofs.Lowering.Linking

/-!
# Histories of a session

A session is asked to compile units, or to run them as well, in any order and with any texts. It
stays consistent: what it exports is linked, under names that differ, and what a unit exports stays
what it was.

* `Session.after`, `Session.follow` — the session after a request, and after a history of them;
* `UnitLowers.distinct` — the functions of a unit have names of their own;
* `Session.Consistent` — what holds of a session at all times;
* `Session.Serves` — what a request does;
* `Session.consistent_throughout` — every history keeps to this.
-/

namespace Abacus.Lowering

open Abacus.Flow (Function)
open Plan

/-! ## Names -/

section

variable {config : FaultConfig} {known exports es : List Export} {items : List Tree}
  {fs : List Function}

/-- A definition is exported under the name of its function. -/
theorem Lowers.names (h : Lowers config known items fs es) :
    fs.map Function.name = es.map Export.name := by
  induction h with
  | nil => rfl
  | function hcompiled _ ih => rw [List.map_cons, List.map_cons, ih, hcompiled.name, Routine.name]
  | statement _ _ ih => exact ih

/-- The functions of a unit have names of their own. -/
theorem UnitLowers.distinct {unitName : String} {emission : Emission}
    (h : UnitLowers config exports unitName items emission)
    (hexports : (exports.map Export.name).Nodup) :
    (exports.map Export.name ++ emission.module.functions.map Function.name).Nodup := by
  cases h with
  | definitions hlowers _ =>
    rw [hlowers.names, ← List.map_append]
    exact hlowers.distinct hexports
  | statements hlowers _ hcompiled =>
    obtain ⟨hdistinct, hnew⟩ := hcompiled.distinct
    rw [List.map_append, List.map_singleton, hcompiled.name, ← List.append_assoc, hlowers.names,
      ← List.map_append]
    refine List.nodup_append.2 ⟨hdistinct, by simp, fun a ha b hb hab => hnew ?_⟩
    rw [← List.mem_singleton.1 hb, ← hab]
    exact ha

end

end Abacus.Lowering

namespace Abacus.Machine.Program

open Abacus.Flow (Function Module)

variable {p : Program} {m : Module} {name : String}

/-- A function of a module is found under its name, if no other one has it. -/
theorem get?_link_of_mem {f : Function} (hdistinct : (m.functions.map Function.name).Nodup)
    (hf : f ∈ m.functions) : (p.link m).get? f.name = some f := by
  rw [get?_link]
  cases hfind : m.functions.reverse.find? (·.name = f.name) with
  | none =>
    have hno := List.find?_eq_none.1 hfind f (List.mem_reverse.2 hf)
    simp at hno
  | some g =>
    have hg := List.mem_reverse.1 (List.mem_of_find?_eq_some hfind)
    have hname : g.name = f.name := by simpa using List.find?_some hfind
    rw [List.inj_on_of_nodup_map hdistinct hg hf hname]
    rfl

/-- A name that no function of a module has stands for what it stood for. -/
theorem get?_link_of_notMem (hname : name ∉ m.functions.map Function.name) :
    (p.link m).get? name = p.get? name := by
  rw [get?_link]
  cases hfind : m.functions.reverse.find? (·.name = name) with
  | none => rfl
  | some g =>
    have hg := List.mem_reverse.1 (List.mem_of_find?_eq_some hfind)
    exact absurd (List.mem_map.2 ⟨g, hg, by simpa using List.find?_some hfind⟩) hname

/-- The names of the functions of a program differ, whatever is linked. -/
theorem nodup_link (h : p.names.Nodup) (m : Module) : (p.link m).names.Nodup := by
  obtain ⟨functions⟩ := m
  unfold link
  induction functions generalizing p with
  | nil => exact h
  | cons f rest ih =>
    refine ih ?_
    rw [names_insert]
    split
    · exact h
    · next hnew => simpa [List.nodup_append, h] using fun a ha => ne_of_mem_of_not_mem ha hnew

end Abacus.Machine.Program

namespace Abacus

open Abacus.Flow (Function)
open Abacus.Lowering (Options Export Emission importExports)
open Abacus.Machine (RuntimeError Program)

/-! ## Requests -/

/-- What a session is asked for: to compile a unit, or to run it as well. -/
inductive Request where
  | compile (source : String)
  | eval (source : String)

/-- The text of the unit. -/
def Request.source : Request → String
  | compile source | eval source => source

namespace Session

/-- The session after a request, whatever comes of it. -/
def after (s : Session) : Request → Session
  | .compile source =>
    match s.compileUnit source with
    | .ok (_, next) => next
    | .error _ => s
  | .eval source => (s.eval source).2

/-- The session after some requests, one after the other. -/
def follow (s : Session) (history : List Request) : Session := history.foldl after s

/-- The units that some requests compile. -/
def compiled (s : Session) : List Request → List Emission
  | [] => []
  | r :: rest =>
    match s.compileUnit r.source with
    | .ok (emission, _) => emission :: (s.after r).compiled rest
    | .error _ => (s.after r).compiled rest

variable {s next : Session} {r : Request} {emission : Emission} {complaints : List Diagnostic}
  {options : Options}

theorem follow_append (s : Session) (front back : List Request) :
    s.follow (front ++ back) = (s.follow front).follow back := List.foldl_append

/-- A unit that does not compile changes nothing. -/
theorem after_of_error (h : s.compileUnit r.source = .error complaints) : s.after r = s := by
  cases r with
  | compile source =>
    rw [Request.source] at h
    rw [after, h]
  | eval source =>
    rw [Request.source] at h
    rw [after, eval, h]

/-- A unit that compiles is linked, whatever comes of running it. -/
theorem after_of_ok (h : s.compileUnit r.source = .ok (emission, next)) : s.after r = next := by
  cases r with
  | compile source =>
    rw [Request.source] at h
    rw [after, h]
  | eval source =>
    rw [Request.source] at h
    rw [after, eval, h]
    dsimp only
    split
    · rfl
    · split <;> rfl

/-- Only a unit that has compiled fails when it runs. -/
theorem compileUnit_of_runtime {source : String} {e : RuntimeError}
    (h : s.eval source = (.error (.runtime e), next)) :
    ∃ emission, s.compileUnit source = .ok (emission, next) := by
  unfold eval at h
  split at h
  · cases h
  · next emission last hcompile =>
    split at h
    · cases h
    · split at h
      · cases h
      · cases h
        exact ⟨emission, hcompile⟩

/-- What compiling a unit changes. -/
theorem compileUnit_ok {source : String} (h : s.compileUnit source = .ok (emission, next)) :
    next = s.accept emission ∧ ∃ tree,
      Lowering.lowerUnit s.options s.exports s.unitName (some tree) = .ok emission := by
  obtain ⟨tree, -, h⟩ := Lowering.except_bind_ok h
  obtain ⟨emission', htree, h⟩ := Lowering.except_bind_ok h
  cases h
  exact ⟨rfl, tree, compileTree_ok htree⟩

/-! ## What holds at all times -/

/-- The exports are linked, under names that differ, and a further unit can be seeded with them. -/
structure Consistent (s : Session) : Prop where
  distinct : (s.exports.map Export.name).Nodup
  linked : ∀ e ∈ s.exports, ∃ f, s.program.get? e.name = some f ∧ f.name = e.name ∧
    f.params.length = e.arity
  seeds : ∃ symbols, importExports s.exports = .ok symbols

/-- What a request does to a session. A unit that does not compile leaves it alone. A unit that
compiles is counted, exported and linked, also if it fails when it runs, and in the later session
`last` what it has exported is still there. -/
structure Serves (s last : Session) (r : Request) : Prop where
  failed : ∀ {complaints}, s.compileUnit r.source = .error complaints → s.after r = s
  accepted : ∀ {emission next}, s.compileUnit r.source = .ok (emission, next) →
    s.after r = next ∧ next.units = s.units + 1 ∧ next.exports = s.exports ++ emission.exports ∧
      ∀ f ∈ emission.module.functions, next.program.get? f.name = some f
  stopped : ∀ {e next}, s.eval r.source = (.error (.runtime e), next) →
    ∃ emission, s.compileUnit r.source = .ok (emission, next)
  lasting : ∀ {emission next}, s.compileUnit r.source = .ok (emission, next) →
    ∀ e ∈ emission.exports, ∃ f ∈ emission.module.functions, f.name = e.name ∧
      last.program.get? e.name = some f

theorem Reached.consistent (h : Reached options s) : s.Consistent := by
  obtain ⟨-, hlinked⟩ := h.linked
  refine ⟨hlinked.distinct, fun e he => ?_, Lowering.importExports_total hlinked.distinct⟩
  obtain ⟨f, hf⟩ := hlinked.exported e he
  obtain ⟨known, routine, b, hcompiled, hname, -, hexports⟩ := hlinked.compiled hf
  refine ⟨f, hf, hcompiled.name.trans hname, ?_⟩
  obtain ⟨-, hmade, rfl⟩ := hcompiled
  rw [hmade.signature.2, List.length_replicate, hexports e he rfl]

/-- Requests lead from session to session. -/
theorem Reached.after (h : Reached options s) (r : Request) : Reached options (s.after r) := by
  cases hcompile : s.compileUnit r.source with
  | error complaints => rwa [after_of_error hcompile]
  | ok result =>
    obtain ⟨emission, next⟩ := result
    rw [after_of_ok hcompile]
    exact h.unit hcompile

theorem Reached.follow (h : Reached options s) (history : List Request) :
    Reached options (s.follow history) := by
  induction history generalizing s with
  | nil => exact h
  | cons r rest ih => exact ih (h.after r)

/-- The functions of a unit have names that are not exported yet. -/
theorem Reached.unit_distinct (h : Reached options s) {source : String}
    (hcompile : s.compileUnit source = .ok (emission, next)) :
    (s.exports.map Export.name ++ emission.module.functions.map Function.name).Nodup := by
  obtain ⟨-, tree, hlower⟩ := compileUnit_ok hcompile
  exact (Lowering.lowerUnit_lowers hlower).distinct h.linked.2.distinct

/-- What is exported goes on to stand for the same function. -/
theorem Reached.get?_after (h : Reached options s) (r : Request) {name : String}
    (hname : name ∈ s.exports.map Export.name) :
    (s.after r).program.get? name = s.program.get? name ∧
      name ∈ (s.after r).exports.map Export.name := by
  cases hcompile : s.compileUnit r.source with
  | error complaints =>
    rw [after_of_error hcompile]
    exact ⟨rfl, hname⟩
  | ok result =>
    obtain ⟨emission, next⟩ := result
    rw [after_of_ok hcompile, (compileUnit_ok hcompile).1]
    refine ⟨Program.get?_link_of_notMem fun hmem => ?_, ?_⟩
    · exact (List.nodup_append.1 (h.unit_distinct hcompile)).2.2 _ hname _ hmem rfl
    · exact List.map_append ▸ List.mem_append_left _ hname

theorem Reached.get?_follow (h : Reached options s) (history : List Request) {name : String}
    (hname : name ∈ s.exports.map Export.name) :
    (s.follow history).program.get? name = s.program.get? name := by
  induction history generalizing s with
  | nil => rfl
  | cons r rest ih =>
    obtain ⟨hget, hname'⟩ := h.get?_after r hname
    exact (ih (h.after r) hname').trans hget

/-- A request does what it should, and whatever is asked later does not undo it. -/
theorem Reached.serves (h : Reached options s) (r : Request) (later : List Request) :
    s.Serves ((s.after r).follow later) r := by
  constructor
  case failed => exact after_of_error
  case stopped => exact compileUnit_of_runtime
  case accepted =>
    intro emission next hcompile
    have hdistinct := (List.nodup_append.1 (h.unit_distinct hcompile)).2.1
    refine ⟨after_of_ok hcompile, ?_⟩
    rw [(compileUnit_ok hcompile).1]
    exact ⟨rfl, rfl, fun f hf => Program.get?_link_of_mem hdistinct hf⟩
  case lasting =>
    intro emission next hcompile e he
    obtain ⟨hnext, tree, hlower⟩ := compileUnit_ok hcompile
    have hdistinct := (List.nodup_append.1 (h.unit_distinct hcompile)).2.1
    obtain ⟨f, hf, hname⟩ :=
      ((Lowering.lowerUnit_lowers hlower).compiled h.linked.2.distinct).2.2 e he
    refine ⟨f, hf, hname, ?_⟩
    have hmem : e.name ∈ (s.after r).exports.map Export.name := by
      rw [after_of_ok hcompile, hnext]
      exact List.mem_map_of_mem (List.mem_append_right _ he)
    rw [(h.after r).get?_follow later hmem, after_of_ok hcompile, hnext, ← hname]
    exact Program.get?_link_of_mem hdistinct hf

/-- A history counts its units, and exports what they export. -/
theorem follow_counts (s : Session) (history : List Request) :
    (s.follow history).units = s.units + (s.compiled history).length ∧
      (s.follow history).exports = s.exports ++ (s.compiled history).flatMap Emission.exports := by
  induction history generalizing s with
  | nil => simp [follow, compiled]
  | cons r rest ih =>
    obtain ⟨hunits, hexports⟩ := ih (s.after r)
    rw [follow, List.foldl_cons, show rest.foldl after (s.after r) = (s.after r).follow rest from rfl,
      hunits, hexports, compiled]
    cases hcompile : s.compileUnit r.source with
    | error complaints =>
      rw [after_of_error hcompile]
      exact ⟨rfl, rfl⟩
    | ok result =>
      obtain ⟨emission, next⟩ := result
      rw [after_of_ok hcompile, (compileUnit_ok hcompile).1]
      refine ⟨?_, ?_⟩
      · rw [List.length_cons, show (s.accept emission).units = s.units + 1 from rfl]
        omega
      · rw [List.flatMap_cons, ← List.append_assoc]
        rfl

/-- A session is consistent after every history, and every request of it has done what it should and
has not been undone by a later one. -/
theorem consistent_throughout (options : Options) (fuel : Nat) (history : List Request) :
    ((start options fuel).follow history).Consistent ∧
    ((start options fuel).follow history).units =
      ((start options fuel).compiled history).length ∧
    ((start options fuel).follow history).exports =
      ((start options fuel).compiled history).flatMap Emission.exports ∧
    ∀ front r back, history = front ++ r :: back →
      ((start options fuel).follow front).Serves ((start options fuel).follow history) r := by
  have hstart : Reached options (start options fuel) := .start fuel
  obtain ⟨hunits, hexports⟩ := follow_counts (start options fuel) history
  refine ⟨(hstart.follow history).consistent, ?_, hexports, fun front r back hhistory => ?_⟩
  · rw [hunits]
    exact Nat.zero_add _
  · rw [hhistory, follow_append]
    exact (hstart.follow front).serves r back

/-- Did a unit fail when it was run? -/
def stoppedRunning : Except SessionError (Option Machine.Execution) → Bool
  | .error (.runtime _) => true
  | _ => false

/-- A unit that defines a name again is refused, and one whose loop runs out of fuel stays. -/
theorem consistent_after_failures :
    let s := (start Options.default 20).follow
      [.compile "fn f(a)\n  a + 1\n", .eval "fn f(b)\n  b\n"]
    let r := Request.eval "for i < 100\n  f(i)\n"
    s.units = 1 ∧ s.exports = [⟨"f", 1, false⟩] ∧ stoppedRunning (s.eval r.source).1 = true ∧
      (s.after r).Consistent ∧ (s.after r).units = 2 ∧ s.Serves (s.after r) r := by
  intro s r
  obtain ⟨hconsistent, -, -, hserves⟩ := consistent_throughout Options.default 20
    [.compile "fn f(a)\n  a + 1\n", .eval "fn f(b)\n  b\n", r]
  exact ⟨by decide +kernel, by decide +kernel, by decide +kernel, hconsistent, by decide +kernel,
    hserves [.compile "fn f(a)\n  a + 1\n", .eval "fn f(b)\n  b\n"] r [] rfl⟩

end Session

end Abacus
