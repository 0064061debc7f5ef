import Abacus.Proofs.Faults.Building
import Abacus.Proofs.Meaning.Functions

/-!
# The protocol of faults

Whatever else a function consists of, a call with a handler and a checked division in it do what the stages of
`FaultState` say. Both can be made wherever careful callers have come to a block without an end, and whatever
such callers do afterwards leaves them as they are.

* `Draft.Continues`, `Draft.Becomes` — what careful callers make of a draft;
* `fault_protocol` — what becomes of each outcome of a call, and of each divisor.
-/

namespace Abacus.Lowering

open Abacus.Flow (Function Value Block Ty Inst Terminator Builder)
open Abacus.Machine
open Recording (start Careful)
open Drafting (on)

variable {config : FaultConfig} {d d' : Draft}

/-! ## Careful callers -/

namespace Draft

/-- What careful callers do to a draft: a step, a call with a handler, or a checked division. -/
inductive Continues : Draft → Draft → Prop
  | step {R : Recording} {op : Op} (hop : R.Careful op) : Continues R.draft (R.step op).draft
  | invoke {d d' : Draft} {config : FaultConfig} {callee : String} {arguments : List Value}
      {made : Value × InvokeSites} (hopen : d.builder.isTerminated d.builder.current = false)
      (hon : on (Drafting.invoke config callee arguments) d = (.ok made, d')) : Continues d d'
  | checkedDiv {d d' : Draft} {config : FaultConfig} {lhs rhs : Value} {made : Value × DivisionSites}
      (hopen : d.builder.isTerminated d.builder.current = false)
      (hon : on (Drafting.checkedDiv config lhs rhs) d = (.ok made, d')) : Continues d d'

/-- What becomes of a draft through such callers. -/
abbrev Becomes : Draft → Draft → Prop := Relation.ReflTransGen Continues

/-- A draft that is well-founded stays so, and keeps what has been finished. -/
theorem Continues.proceeds (h : d.Continues d') (hd : d.Founded) : d.Proceeds d' := by
  cases h with
  | step hop => exact .of_step _ hop
  | @invoke _ _ config callee arguments _ hopen hon =>
    obtain ⟨d₁, hon₁, hproceeds, -⟩ := Drafting.invoke_builds config callee arguments hd hopen
    cases hon.symm.trans hon₁
    exact hproceeds
  | @checkedDiv _ _ config lhs rhs _ hopen hon =>
    obtain ⟨d₁, hon₁, hproceeds, -⟩ := Drafting.checkedDiv_builds config lhs rhs hd hopen
    cases hon.symm.trans hon₁
    exact hproceeds

theorem Becomes.proceeds (h : d.Becomes d') (hd : d.Founded) : d.Proceeds d' := by
  induction h with
  | refl => exact ⟨.refl d, id⟩
  | tail _ hlast ih => exact ih.trans (hlast.proceeds (ih.founded hd))

end Draft

/-! ## The protocol -/

/-- Wherever a call with a handler is made, the handler decides about each outcome of the call. Wherever a
checked division is made, the divisor decides whether there is a fault. -/
theorem fault_protocol (config : FaultConfig) (name : String) (params : List Ty) (result : Ty) {d : Draft}
    (hd : (start name params result).draft.Becomes d)
    (hopen : d.builder.isTerminated d.builder.current = false) :
    (∀ (callee : String) (arguments : List Value), ∃ v sites d',
      on (Drafting.invoke config callee arguments) d = (.ok (v, sites), d') ∧
        ∀ d'' : Draft, d'.Becomes d'' → ∀ (p : Program) (f : Function) (frame inner : Frame)
          (contents : List Scalar), p.get? callee = some f →
          frame.Stands d''.builder.function d.builder.current
            (d''.builder.info d.builder.current).insts.size →
          arguments.map frame.value? = contents.map some → Frame.enter f contents = .ok inner →
          Handles config p v sites.normal frame inner) ∧
    (∀ lhs rhs : Value, lhs.index < d.builder.valueCount → rhs.index < d.builder.valueCount →
      ∃ quotient sites d', on (Drafting.checkedDiv config lhs rhs) d = (.ok (quotient, sites), d') ∧
        ∀ d'' : Draft, d'.Becomes d'' → ∀ (p : Program) (frame : Frame),
          frame.Stands d''.builder.function d.builder.current
            (d.builder.info d.builder.current).insts.size →
          Divides config p sites.okay lhs rhs quotient frame) := by
  have hstart : (start name params result).draft.Founded := Recording.founded_start name params result
  have hfounded : d.Founded := (hd.proceeds hstart).founded hstart
  constructor
  · intro callee arguments
    obtain ⟨d', hon, hgoes, hhandling⟩ := Drafting.invoke_builds config callee arguments hfounded hopen
    refine ⟨_, _, d', hon, fun d'' hd'' p f frame inner contents hf hframe hcontents henter => ?_⟩
    have hlater := hhandling.settled (hd''.proceeds (hgoes.founded hfounded)).settled
    exact hlater.stands.handles hframe hf hcontents henter
  · intro lhs rhs hlhs hrhs
    obtain ⟨d', hon, hgoes, hdividing⟩ := Drafting.checkedDiv_builds config lhs rhs hfounded hopen
    refine ⟨_, _, d', hon, fun d'' hd'' p frame hframe => ?_⟩
    have hlater := hdividing.settled (hd''.proceeds (hgoes.founded hfounded)).settled
    exact hlater.stands.divides hlhs hrhs hframe

/-! ### One fault of each kind -/

theorem Draft.becomes_step (d : Draft) {op : Op} (hop : d.recording.Careful op) :
    d.Becomes (d.recording.step op).draft := .single (.step (R := d.recording) hop)

/-- A function that has just been begun, with its entry sealed. -/
def begun (name : String) (params : List Ty) : Draft :=
  ((start name params .int).step (.sealBlock Function.entry)).draft

theorem begun_becomes (name : String) (params : List Ty) :
    (start name params .int).draft.Becomes (begun name params) :=
  .single (.step (by simp [Careful, start, Builder.start, Builder.blockCount, Function.entry]))

/-- A function that raises a fault. -/
def raising (typeId : Int64) : Function :=
  ((begun "h" []).finishBlock Function.entry [(.faultAlloc 7 typeId, .fault)] (.raise ⟨0⟩)).builder.function

/-- A function that calls it with a handler, and gives back what it gives. -/
def handling : Draft :=
  ((on (Drafting.invoke .default "h" []) (begun "g" [])).2.recording.step (.terminate (.ret ⟨0⟩))).draft

/-- The program of both functions. -/
def raisingProgram (typeId : Int64) : Program := ⟨[raising typeId, handling.builder.function]⟩

/-- A function that divides its parameters. -/
def dividing : Draft := (on (Drafting.checkedDiv .default ⟨0⟩ ⟨1⟩) (begun "f" [.int, .int])).2

/-- An activation of it that has read its parameters. -/
def dividingFrame (l r : Int64) : Frame :=
  ⟨dividing.builder.function, Function.entry, 2,
    #[some (.int l), some (.int r), none, none, none, none], none, none⟩

/-- Where a function without parameters begins. -/
theorem enter_stands {f : Function} (hparams : f.params = []) :
    ∃ frame, Frame.enter f (([] : List Int64).map .int) = .ok frame ∧ frame.Stands f Function.entry 0 := by
  have hlength : ([] : List Scalar).length = f.params.length := by rw [hparams]; rfl
  obtain ⟨frame, henter, hentered⟩ := Frame.enter_ok hlength
  exact ⟨frame, henter, hentered.function, hentered.waiting, hentered.size, hentered.block, hentered.next⟩

/-- The fault leaves the function that raises it. -/
theorem closes_raising (p : Program) (typeId : Int64) : ∃ inner n,
    Frame.enter (raising typeId) [] = .ok inner ∧ Closes p inner n [] (.unwinding ⟨7, typeId⟩) := by
  have hsize : ((begun "h" []).builder.info Function.entry).insts.size = 0 := by decide +kernel
  have hcount : (begun "h" []).builder.valueCount = 0 := by decide +kernel
  have hexists : Function.entry.index < (begun "h" []).builder.blockCount := by decide +kernel
  have hopen : ((begun "h" []).builder.info Function.entry).terminator? = none := by decide +kernel
  obtain ⟨hcode, hend⟩ := Draft.has_finishBlock [(.faultAlloc 7 typeId, .fault)] (.raise ⟨0⟩) hexists hopen
    (by simp [Inst.isPhi])
  rw [hsize] at hcode hend
  rw [hcount] at hcode
  obtain ⟨inner, henter, hinner⟩ := enter_stands (f := raising typeId) rfl
  obtain ⟨n, next, hleads, hnext, hvalue⟩ :=
    hinner.executes (p := p) (i := 0) hcode rfl (.faultAlloc 7 typeId)
  obtain ⟨m, hcloses⟩ := hnext.unwinds (p := p) (.inl hend) ((hvalue _).trans (if_pos rfl))
  exact ⟨inner, _, henter, hleads.closes hcloses⟩

/-- The handler of `handling` meets faults of each type, and `dividing` meets 0 and too large a quotient. -/
theorem fault_protocol_raising :
    (∃ n, ∀ fuel, n ≤ fuel → (raisingProgram 1).run "g" [] fuel = .ok ⟨0, [⟨"g", 7⟩], n⟩) ∧
    (∃ n, ∀ fuel, n ≤ fuel → (raisingProgram 2).run "g" [] fuel = .error (.uncaughtFault "g" 7)) ∧
    (∃ n, ∀ fuel, n ≤ fuel → (raisingProgram (-1)).run "g" [] fuel = .error (.unexpected "g")) ∧
    (∃ n, Closes .empty (dividingFrame 7 0) n [] (.unwinding ⟨1, 1⟩)) ∧
    ∃ quotient sites n after, (on (Drafting.checkedDiv .default ⟨0⟩ ⟨1⟩) (begun "f" [.int, .int])).1 =
        .ok (quotient, sites) ∧ Leads .empty (dividingFrame Int64.minValue (-1)) n [] after ∧
      after.value? quotient = some (.int Int64.minValue) := by
  obtain ⟨hcalls, -⟩ := fault_protocol .default "g" [] .int (begun_becomes "g" []) (by decide +kernel)
  obtain ⟨-, hdivisions⟩ :=
    fault_protocol .default "f" [.int, .int] .int (begun_becomes "f" [.int, .int]) (by decide +kernel)
  -- The function that calls goes on with the call of the theorem.
  obtain ⟨v, sites, d', hon, hhandles⟩ := hcalls "h" []
  have hd' : d' = (on (Drafting.invoke .default "h" []) (begun "g" [])).2 := by rw [hon]
  have hhandling : handling = (d'.recording.step (.terminate (.ret ⟨0⟩))).draft := by rw [hd', handling]
  have hreturn : d'.recording.Careful (.terminate (.ret ⟨0⟩)) := by
    rw [hd']
    exact ⟨by decide +kernel, nofun⟩
  have hlater : d'.Becomes handling := hhandling ▸ d'.becomes_step hreturn
  -- It begins where the call has been made.
  have hname : handling.builder.function.name = "g" := by decide +kernel
  have hparams : handling.builder.function.params = [] := by decide +kernel
  have hcurrent : (begun "g" []).builder.current = Function.entry := by decide +kernel
  have hsize : (handling.builder.info Function.entry).insts.size = 0 := by decide +kernel
  obtain ⟨frame, henter, hframe⟩ := enter_stands hparams
  rw [← hsize, ← hcurrent] at hframe
  have hget : ∀ {typeId}, (raising typeId).name = "h" →
      (raisingProgram typeId).get? "h" = some (raising typeId) ∧
        (raisingProgram typeId).get? "g" = some handling.builder.function := by
    intro typeId hraising
    exact ⟨List.find?_cons_of_pos (by simp [hraising]),
      (List.find?_cons_of_neg (by simp [hraising])).trans (List.find?_cons_of_pos (by simp [hname]))⟩
  have hmeets : ∀ {typeId}, (raising typeId).name = "h" → ∃ inner n,
      Handles .default (raisingProgram typeId) v sites.normal frame inner ∧
        Closes (raisingProgram typeId) inner n [] (.unwinding ⟨7, typeId⟩) := by
    intro typeId hraising
    obtain ⟨inner, n, hinner, hcloses⟩ := closes_raising (raisingProgram typeId) typeId
    exact ⟨inner, n, hhandles handling hlater _ _ frame inner [] (hget hraising).1 hframe rfl hinner, hcloses⟩
  rw [← hframe.function] at hname
  -- So does the division, where nothing more is done.
  obtain ⟨quotient, divisionSites, d₁, hon₁, hdivides⟩ :=
    hdivisions ⟨0⟩ ⟨1⟩ (by decide +kernel) (by decide +kernel)
  have hd₁ : d₁ = dividing := by rw [dividing, hon₁]
  have hstands : ∀ l r, (dividingFrame l r).Stands d₁.builder.function
      (begun "f" [.int, .int]).builder.current
      ((begun "f" [.int, .int]).builder.info (begun "f" [.int, .int]).builder.current).insts.size := by
    have hvalues : 6 = dividing.builder.function.values.size := by decide +kernel
    have hblock : Function.entry = (begun "f" [.int, .int]).builder.current := by decide +kernel
    have hnext : 2 = ((begun "f" [.int, .int]).builder.info Function.entry).insts.size := by decide +kernel
    rw [hd₁, ← hblock]
    exact fun l r => ⟨rfl, rfl, hvalues, rfl, hnext⟩
  refine ⟨?_, ?_, ?_, ?_, ?_⟩
  · have hraising : (raising 1).name = "h" := by decide +kernel
    obtain ⟨inner, n, hhandles, hcloses⟩ := hmeets hraising
    obtain ⟨m, hreturns⟩ := hhandles.ours hcloses
    refine ⟨m, fun fuel hfuel => ?_⟩
    rw [Program.run_of_closes (hget hraising).2 henter hreturns fuel, if_pos hfuel, hname]
    rfl
  · have hraising : (raising 2).name = "h" := by decide +kernel
    obtain ⟨inner, n, hhandles, hcloses⟩ := hmeets hraising
    obtain ⟨m, hunwinds⟩ := hhandles.other (by decide) (by decide) hcloses
    refine ⟨m, fun fuel hfuel => ?_⟩
    rw [Program.run_of_closes (hget hraising).2 henter hunwinds fuel, if_pos hfuel, ← hframe.function, hname]
    rfl
  · have hraising : (raising (-1)).name = "h" := by decide +kernel
    obtain ⟨inner, n, hhandles, hcloses⟩ := hmeets hraising
    obtain ⟨m, hstops⟩ := hhandles.foreign (by decide) (by decide) hcloses
    refine ⟨m, fun fuel hfuel => ?_⟩
    rw [Program.run_eq_remaining (hget hraising).2 henter, hstops [] fuel ⟨0, #[]⟩ (by simpa using hfuel),
      hname]
  · exact (hdivides d₁ .refl .empty _ (hstands 7 0)).byZero rfl rfl
  · obtain ⟨n, after, hleads, -, hvalue⟩ :=
      (hdivides d₁ .refl .empty _ (hstands Int64.minValue (-1))).byOther rfl rfl (by decide)
    refine ⟨quotient, divisionSites, n, after, by rw [hon₁], hleads, ?_⟩
    rw [hvalue, show Int64.ofInt (Int64.minValue.toInt.tdiv (-1 : Int64).toInt) = Int64.minValue by decide]

end Abacus.Lowering
