import Abacus.Proofs.Flow.Building
import Abacus.Proofs.Machine.Costs

/-!
# Passing through a block

A block is gone through instruction by instruction, and left by its end. This module says what an
activation does when the instructions that come next are known, whatever else its function holds.

* `Function.Has`, `Function.Closed` — some of the instructions of a block, and its end;
* `Frame.Stands` — where an activation is;
* `Stands.executes`, `Stands.branches`, `Stands.returns`, `Stands.unwinds`, `Stands.stops` — one step;
* `Stands.goesOn`, `Stands.lands` — a call that has a handler;
* `Stops`, `Stops.remaining` — an activation that stops the program, whatever waits for it.
-/

namespace Abacus.Flow.Function

/-- Behind the first `start` instructions of a block come some more, whose values are numbered from `first`
on. -/
structure Has (f : Function) (c : Block) (start first : Nat) (code : List Inst) : Prop where
  listed : ∀ i < code.length, (f.block c).insts[start + i]? = some ⟨first + i⟩
  inst : ∀ i (h : i < code.length), f.inst ⟨first + i⟩ = code[i]
  values : first + code.length ≤ f.values.size

/-- A block has so many instructions, and this end. -/
structure Closed (f : Function) (c : Block) (count : Nat) (t : Terminator) : Prop where
  count : (f.block c).insts.size = count
  terminator : (f.block c).terminator? = some t

end Abacus.Flow.Function

namespace Abacus.Machine

open Abacus.Flow (Function Value Block Inst)

variable {p : Program} {f : Function} {c target : Block} {i count start first : Nat} {code : List Inst}
  {frame after : Frame} {content : Scalar} {t : Flow.Terminator}

/-! ## Programs that stop -/

/-- An activation stops the program with an error after `n` steps. -/
def Stops (p : Program) (frame : Frame) (n : Nat) (e : RuntimeError) : Prop :=
  ∀ (fuel : Nat) (t : Tally), t.steps ≤ fuel → conclude p fuel frame t =
    if t.steps + n ≤ fuel then .error e else .error (.fuelExhausted fuel)

theorem Leads.stops {mid : Frame} {n m : Nat} {reports : List FaultReport} {e : RuntimeError}
    (h : Leads p frame n reports mid) (h' : Stops p mid m e) : Stops p frame (n + m) e := by
  intro fuel t ht
  rw [h fuel t ht]
  by_cases hn : t.steps + n ≤ fuel
  · rw [if_pos hn, h' fuel _ hn, Tally.plus_steps, Nat.add_assoc]
  · rw [if_neg hn, if_neg (by omega)]

/-- It does so whatever waits for it. -/
theorem Stops.remaining {n : Nat} {e : RuntimeError} (h : Stops p frame n e)
    (hwaiting : frame.waiting = none) (callers : List Frame) {fuel : Nat} {t : Tally}
    (hfuel : t.steps + n ≤ fuel) : Machine.remaining p fuel ⟨frame, callers⟩ t = .error e := by
  have hrun : conclude p fuel frame t = .error e := by
    rw [h fuel t (by omega), if_pos hfuel]
  unfold conclude at hrun
  have hbound : fuel < fuel + 1 - t.steps + t.steps := by omega
  rw [remaining_activation hwaiting callers hbound, hrun]
  rfl

/-- A run is what remains to be done when its first activation has begun. -/
theorem Program.run_eq_remaining {entry : String} {arguments : List Int64} (hf : p.get? entry = some f)
    (henter : Frame.enter f (arguments.map .int) = .ok frame) (fuel : Nat) :
    p.run entry arguments fuel = remaining p fuel ⟨frame, []⟩ ⟨0, #[]⟩ := by
  unfold Program.run
  rw [hf]
  dsimp only
  rw [henter]
  rfl

/-! ## Steps -/

namespace Frame

/-- An activation of the function waits for nothing and stands before an instruction of a block. -/
structure Stands (frame : Frame) (f : Function) (c : Block) (i : Nat) : Prop where
  function : frame.function = f
  waiting : frame.waiting = none
  size : frame.values.size = f.values.size
  block : frame.block = c
  next : frame.next = i

namespace Stands

/-- The instruction that comes next. -/
theorem at_inst (h : frame.Stands f c (start + i)) (hcode : f.Has c start first code) {inst : Inst}
    (hi : code[i]? = some inst) :
    (frame.function.block frame.block).insts[frame.next]? = some ⟨first + i⟩ ∧
      frame.function.inst ⟨first + i⟩ = inst ∧ first + i < f.values.size := by
  obtain ⟨hlt, hinst⟩ := List.getElem?_eq_some_iff.1 hi
  have hvalues := hcode.values
  refine ⟨?_, ?_, by omega⟩
  · rw [h.function, h.block, h.next]
    exact hcode.listed i hlt
  · rw [h.function, hcode.inst i hlt, hinst]

/-- An instruction is carried out: its value has the content, and all others have what they had. -/
theorem executes (h : frame.Stands f c (start + i)) (hcode : f.Has c start first code) {inst : Inst}
    (hi : code[i]? = some inst) (heval : Evaluated frame inst content after) : ∃ n next,
      Leads p frame n (reportsOf frame inst) next ∧ next.Stands f c (start + (i + 1)) ∧
        ∀ u : Value, next.value? u = if u = ⟨first + i⟩ then some content else frame.value? u := by
  obtain ⟨hlisted, hof, hlt⟩ := h.at_inst hcode hi
  have hreports : frame.reports = reportsOf frame inst := by
    simp only [reports, hlisted, hof]
  obtain ⟨n, -, hleads⟩ := leads_of_step (p := p) h.waiting (.inst hlisted (hof ▸ heval))
  rw [hreports] at hleads
  have hframe := heval.frame_eq
  refine ⟨n, _, hleads, ⟨?_, ?_, ?_, ?_, ?_⟩, fun u => ?_⟩
  · rw [hframe]
    exact h.function
  · rw [hframe]
    exact h.waiting
  · rw [hframe]
    exact (size_assign ..).trans h.size
  · rw [hframe]
    exact h.block
  · rw [hframe]
    exact congrArg (· + 1) h.next
  · have hsize : first + i < after.values.size := by
      rw [hframe]
      exact h.size.symm ▸ hlt
    show (after.assign ⟨first + i⟩ content).value? u = _
    split
    · next hu => rw [hu, value?_assign _ _ hsize]
    · next hu =>
      rw [value?_assign_of_ne _ _ fun hindex => hu (Flow.Value.ext_index hindex.symm), hframe]
      rfl

/-- At the end of a block there is no further instruction. -/
theorem at_end (h : frame.Stands f c count) (hclosed : f.Closed c count t) :
    (frame.function.block frame.block).insts[frame.next]? = none ∧
      (frame.function.block frame.block).terminator? = some t ∧ frame.reports = [] := by
  have hnone : (frame.function.block frame.block).insts[frame.next]? = none := by
    rw [h.function, h.block, h.next, ← hclosed.count]
    exact Array.getElem?_size
  refine ⟨hnone, ?_, by simp only [reports, hnone]⟩
  rw [h.function, h.block]
  exact hclosed.terminator

/-- Moving to a block without phis changes no value. -/
theorem arrived (hfunction : frame.function = f) (hphis : (f.block target).phis = []) :
    frame.Arrived target { frame with block := target, next := 0 } := by
  refine ⟨[], ?_, rfl⟩
  rw [hfunction, hphis]
  exact .nil

theorem moved (h : frame.Stands f c i) (target : Block) :
    ({ frame with block := target, next := 0 } : Frame).Stands f target 0 :=
  ⟨h.function, h.waiting, h.size, rfl, rfl⟩

/-- A branch leads to one of two blocks. -/
theorem branches (h : frame.Stands f c count) {condition : Value} {thenDest elseDest : Block} {taken : Bool}
    (hclosed : f.Closed c count (.branch condition thenDest elseDest))
    (hcondition : frame.value? condition = some (.bool taken))
    (hphis : (f.block (if taken then thenDest else elseDest)).phis = []) : ∃ n, Leads p frame n []
      { frame with block := if taken then thenDest else elseDest, next := 0 } := by
  obtain ⟨hend, hterm, hreports⟩ := h.at_end hclosed
  have htaken : isTaken frame condition = .ok taken := by
    unfold isTaken
    rw [read_eq_ok_iff.2 hcondition]
    rfl
  obtain ⟨n, -, hleads⟩ := leads_of_step (p := p) h.waiting
    (.branch hend hterm htaken (arrived h.function hphis))
  exact ⟨n, hreports ▸ hleads⟩

theorem returns (h : frame.Stands f c count) {v : Value} (hclosed : f.Closed c count (.ret v))
    (hcontent : frame.value? v = some content) : ∃ n, Closes p frame n [] (.returned content) := by
  obtain ⟨hend, hterm, hreports⟩ := h.at_end hclosed
  obtain ⟨n, hcloses⟩ := closes_of_step (p := p) h.waiting (.ret hend hterm hcontent)
  exact ⟨n, hreports ▸ hcloses⟩

/-- A fault is raised, or passed on. -/
theorem unwinds (h : frame.Stands f c count) {v : Value} {fault : Fault}
    (hclosed : f.Closed c count (.raise v) ∨ f.Closed c count (.resume v))
    (hfault : frame.value? v = some (.fault fault)) : ∃ n, Closes p frame n [] (.unwinding fault) := by
  rcases hclosed with hclosed | hclosed <;> obtain ⟨hend, hterm, hreports⟩ := h.at_end hclosed
  · obtain ⟨n, hcloses⟩ := closes_of_step (p := p) h.waiting (.raise hend hterm hfault)
    exact ⟨n, hreports ▸ hcloses⟩
  · obtain ⟨n, hcloses⟩ := closes_of_step (p := p) h.waiting (.resume hend hterm hfault)
    exact ⟨n, hreports ▸ hcloses⟩

/-- A fault that belongs to nobody stops the program. -/
theorem stops (h : frame.Stands f c (start + i)) (hcode : f.Has c start first code) {pad : Value}
    (hi : code[i]? = some (.callUnexpected pad)) : Stops p frame 1 (.unexpected f.name) := by
  obtain ⟨hlisted, hof, -⟩ := h.at_inst hcode hi
  -- The step is counted before the instruction is looked at, so fuel may run out instead.
  intro fuel t ht
  unfold conclude
  rw [show fuel + 1 - t.steps = fuel - t.steps + 1 by omega, activation_step h.waiting]
  split
  · next hle =>
    have hburn : burn fuel t = .ok ((), { t with steps := t.steps + 1 }) := by
      unfold burn
      rw [if_pos (by omega)]
    refine Exec.bind_error ?_
    unfold step
    rw [Exec.bind_ok hburn]
    simp only [hlisted, stepInst, hof, isBoundParam]
    rw [← h.function]
    rfl
  · next hgt =>
    refine Exec.bind_error (Exec.bind_error ?_)
    unfold burn
    rw [if_neg (by omega)]

/-! ### Calls -/

section

variable {v : Value} {normal unwind : Block} {callee : String} {arguments : List Value} {g : Function}
  {contents : List Scalar} {inner : Frame} {m : Nat} {reports : List FaultReport}

/-- The result of a call goes to where control goes on. -/
theorem goesOn (h : frame.Stands f c count) (hclosed : f.Closed c count (.invoke v normal unwind))
    (hinst : f.inst v = .call callee arguments) (hphis : (f.block normal).phis = [])
    (hg : p.get? callee = some g) (hcontents : arguments.map frame.value? = contents.map some)
    (henter : Frame.enter g contents = .ok inner) (hinner : Closes p inner m reports (.returned content)) :
    ∃ n, Leads p frame n reports { frame.assign v content with block := normal, next := 0 } := by
  obtain ⟨hend, hterm, hreports⟩ := h.at_end hclosed
  have hself : ({ frame with waiting := none } : Frame) = frame := by rw [← h.waiting]
  have harrived : (({ frame with waiting := none } : Frame).assign v content).Arrived normal
      { frame.assign v content with block := normal, next := 0 } := by
    rw [hself]
    exact arrived h.function hphis
  obtain ⟨n, -, hleads⟩ := leads_of_call h.waiting (.invoke hend hterm (h.function ▸ hinst) hg hcontents)
    henter hinner (.normal rfl harrived)
  rw [hreports, List.nil_append] at hleads
  exact ⟨n, hleads⟩

/-- A fault goes to the handler. -/
theorem lands (h : frame.Stands f c count) (hclosed : f.Closed c count (.invoke v normal unwind))
    (hinst : f.inst v = .call callee arguments) (hphis : (f.block unwind).phis = [])
    (hg : p.get? callee = some g) (hcontents : arguments.map frame.value? = contents.map some)
    (henter : Frame.enter g contents = .ok inner) {fault : Fault}
    (hinner : Closes p inner m reports (.unwinding fault)) : ∃ n, Leads p frame n reports
      { frame with inFlight := some fault, block := unwind, next := 0 } := by
  obtain ⟨hend, hterm, hreports⟩ := h.at_end hclosed
  have hself : ({ frame with waiting := none, inFlight := some fault } : Frame) =
      { frame with inFlight := some fault } := by rw [← h.waiting]
  have harrived : ({ frame with waiting := none, inFlight := some fault } : Frame).Arrived unwind
      { frame with inFlight := some fault, block := unwind, next := 0 } := by
    rw [hself]
    exact arrived h.function hphis
  obtain ⟨n, -, hleads⟩ := leads_of_call h.waiting (.invoke hend hterm (h.function ▸ hinst) hg hcontents)
    henter hinner (.landed rfl harrived)
  rw [hreports, List.nil_append] at hleads
  exact ⟨n, hleads⟩

end

end Stands

end Frame

end Abacus.Machine
