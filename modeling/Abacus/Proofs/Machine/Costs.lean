import Abacus.Proofs.Machine.Nesting

/-!
# What parts of a run cost

What an activation comes to does not depend on the fuel, as long as there is enough of it. This
module speaks of runs without the fuel: a part of a run has a cost in steps and makes some reports,
and with less fuel than its cost it stops with exactly the error that says so.

* `Costs` — a part of a run gives a result; with it the steps of the machine (`Stepped.costs`,
  `Delivered.costs`), which cost at least one step each;
* `Leads` — an activation gets from one frame to another;
* `Closes` — an activation comes to an outcome;
* `Lasts` — an activation needs at least so many steps, if it ends at all;
* `Program.run_of_closes`, `Program.run_of_lasts` — what this means for a whole run.
-/

namespace Abacus.Machine

open Abacus.Flow (Function Value Block Inst)
open Exec (Ends)

variable {α β γ : Type}

/-! ## Costs -/

/-- The tally after some more steps and reports. -/
def Tally.plus (t : Tally) (n : Nat) (reports : List FaultReport) : Tally :=
  ⟨t.steps + n, t.reports ++ reports⟩

@[simp] theorem Tally.plus_steps (t : Tally) (n : Nat) (reports : List FaultReport) :
    (t.plus n reports).steps = t.steps + n := rfl

@[simp] theorem Tally.plus_zero (t : Tally) : t.plus 0 [] = t := by
  simp [plus]

@[simp] theorem Tally.plus_plus (t : Tally) (n m : Nat) (reports reports' : List FaultReport) :
    (t.plus n reports).plus m reports' = t.plus (n + m) (reports ++ reports') := by
  simp only [plus, Nat.add_assoc, Tally.mk.injEq, true_and]
  apply Array.toList_inj.1
  simp

/-- A part of a run, given for every fuel, gives `a`. It costs `n` steps, and stops if there are not
as many left. -/
def Costs (x : Nat → Exec α) (n : Nat) (reports : List FaultReport) (a : α) : Prop :=
  ∀ (fuel : Nat) (t : Tally), t.steps ≤ fuel → x fuel t =
    if t.steps + n ≤ fuel then .ok (a, t.plus n reports) else .error (.fuelExhausted fuel)

section

variable {x : Nat → Exec α} {y : Nat → α → Exec β} {a : α} {b : β} {n m : Nat}
  {reports reports' : List FaultReport}

theorem Costs.pure (a : α) : Costs (fun _ => pure a) 0 [] a := by
  intro fuel t ht
  rw [Nat.add_zero, if_pos ht, Tally.plus_zero]
  rfl

theorem Costs.lift {e : Except RuntimeError α} (h : e = .ok a) :
    Costs (fun _ => liftM e) 0 [] a := by
  subst h
  exact .pure a

theorem Costs.bind (hx : Costs x n reports a) (hy : Costs (fun fuel => y fuel a) m reports' b) :
    Costs (fun fuel => x fuel >>= y fuel) (n + m) (reports ++ reports') b := by
  intro fuel t ht
  dsimp only
  rw [Exec.bind_apply, hx fuel t ht]
  by_cases hn : t.steps + n ≤ fuel
  · have hrest := hy fuel (t.plus n reports) hn
    dsimp only at hrest
    rw [Tally.plus_plus, Tally.plus_steps, Nat.add_assoc] at hrest
    rw [if_pos hn]
    exact hrest
  · rw [if_neg hn, if_neg (by omega)]
    rfl

/-- What comes after a part that costs nothing. -/
theorem Costs.before (hx : Costs x 0 [] a) (hy : Costs (fun fuel => y fuel a) m reports' b) :
    Costs (fun fuel => x fuel >>= y fuel) m reports' b := by
  have h := hx.bind hy
  rwa [Nat.zero_add, List.nil_append] at h

/-- What comes before a part that costs nothing. -/
theorem Costs.after (hx : Costs x n reports a) (hy : Costs (fun fuel => y fuel a) 0 [] b) :
    Costs (fun fuel => x fuel >>= y fuel) n reports b := by
  have h := hx.bind hy
  rwa [Nat.add_zero, List.append_nil] at h

theorem costs_burn : Costs burn 1 [] () := by
  intro fuel t ht
  unfold burn
  by_cases h : t.steps < fuel
  · rw [if_pos h, if_pos (by omega)]
    simp [Tally.plus]
  · rw [if_neg h, if_neg (by omega)]

theorem costs_report (function : String) (code : Int64) :
    Costs (fun _ => report function code) 0 [⟨function, code⟩] () := by
  intro fuel t ht
  rw [Nat.add_zero, if_pos ht]
  show Except.ok ((), { t with reports := t.reports.push ⟨function, code⟩ }) = _
  simp [Tally.plus]

/-- Parts made one after another for the elements of a list. -/
theorem Costs.mapM {f : Nat → α → Exec β} {as : List α} {bs : List β}
    (h : List.Forall₂ (fun a b => Costs (fun fuel => f fuel a) 1 [] b) as bs) :
    Costs (fun fuel => as.mapM (f fuel)) as.length [] bs := by
  induction h with
  | nil => exact .pure []
  | @cons a b as bs hfirst _ ih =>
    simp only [List.mapM_cons, List.length_cons]
    rw [Nat.add_comm]
    exact hfirst.bind (ih.after (.pure _))

end

/-! ## Steps -/

/-- The reports that an instruction makes. -/
def reportsOf (frame : Frame) : Inst → List FaultReport
  | .reportFault v =>
    match frame.value? v with
    | some (.int code) => [⟨frame.function.name, code⟩]
    | _ => []
  | _ => []

theorem Frame.Takes.costs {frame : Frame} {phi : Value} {taken : Value × Scalar} (target : Block)
    (h : frame.Takes phi taken) :
    Costs (fun fuel => incomingValue fuel frame frame.block target phi) 1 [] taken := by
  obtain ⟨phi', content⟩ := taken
  obtain ⟨rfl, incoming, ⟨source, v⟩, hinst, hfind, hvalue⟩ := h
  refine costs_burn.after ?_
  simp only [hinst, hfind]
  exact (Costs.lift (Frame.read_eq_ok_iff.2 hvalue)).before (.pure _)

/-- Moving along an edge costs a step for each phi. -/
theorem Frame.Arrived.costs {frame after : Frame} {target : Block}
    (h : frame.Arrived target after) : Costs (fun fuel => jump fuel frame target)
      (frame.function.block target).phis.length [] after := by
  obtain ⟨contents, htakes, rfl⟩ := h
  have hall := Costs.mapM (htakes.imp fun _ _ h => h.costs target)
  exact hall.after (.pure _)

theorem Evaluated.costs {frame after : Frame} {inst : Inst} {content : Scalar}
    (h : Evaluated frame inst content after) :
    Costs (fun _ => evaluate frame inst) 0 (reportsOf frame inst) (content, after) := by
  have hint : ∀ {v : Value} {n : Int64}, frame.value? v = some (.int n) →
      Costs (fun _ => liftM (frame.readInt v)) 0 [] n :=
    fun hv => .lift (Frame.readInt_eq_ok_iff.2 hv)
  have hfloat : ∀ {v : Value} {x : Float}, frame.value? v = some (.float x) →
      Costs (fun _ => liftM (frame.readFloat v)) 0 [] x :=
    fun hv => .lift (Frame.readFloat_eq_ok_iff.2 hv)
  have hfault : ∀ {v : Value} {fault : Fault}, frame.value? v = some (.fault fault) →
      Costs (fun _ => liftM (frame.readFault v)) 0 [] fault :=
    fun hv => .lift (Frame.readFault_eq_ok_iff.2 hv)
  cases h with
  | intConst | floatConst | faultAlloc | faultTypeId | endCatch => exact .pure _
  | @intArith op lhs rhs a b ha hb hdiv =>
    have hcheck : (op = .div && b == 0) = false := by
      by_cases hop : op = .div
      · simp [hop, hdiv hop]
      · simp [hop]
    refine (hint ha).before ((hint hb).before ?_)
    simp only [hcheck]
    exact .pure _
  | floatArith ha hb | floatCompare ha hb => exact (hfloat ha).before ((hfloat hb).before (.pure _))
  | intCompare ha hb => exact (hint ha).before ((hint hb).before (.pure _))
  | @boolToInt v b hv =>
    have hread : Costs (fun _ => liftM (frame.read v)) 0 [] (Scalar.bool b) :=
      .lift (Frame.read_eq_ok_iff.2 hv)
    exact hread.before (.pure _)
  | intToFloat hv => exact (hint hv).before (.pure _)
  | floatToInt hv => exact (hfloat hv).before (.pure _)
  | landingPad h =>
    simp only [evaluate, h]
    exact .pure _
  | faultSelector hv | beginCatch hv => exact (hfault hv).before (.pure _)
  | reportFault hv =>
    simp only [reportsOf, hv]
    exact (hint hv).before ((costs_report _ _).after (.pure _))

/-- The reports that a step of a frame makes. -/
def Frame.reports (frame : Frame) : List FaultReport :=
  match (frame.function.block frame.block).insts[frame.next]? with
  | some v => reportsOf frame (frame.function.inst v)
  | none => []

theorem costs_callFrom {p : Program} {frame : Frame} {callee : String} {arguments : List Value}
    {waiting : Waiting} {f : Function} {contents : List Scalar} (hf : p.get? callee = some f)
    (hcontents : arguments.map frame.value? = contents.map some) :
    Costs (fun _ => liftM (callFrom p frame callee arguments waiting)) 0 []
      (.calling { frame with waiting := some waiting } f contents) := by
  refine .lift ?_
  unfold callFrom
  rw [hf, Frame.mapM_read_eq_ok_iff.2 hcontents]
  rfl

/-- Everything that a step can lead to it does lead to, at a cost. -/
theorem Stepped.costs {p : Program} {frame : Frame} {progress : Progress}
    (h : Stepped p frame progress) :
    ∃ n, 0 < n ∧ Costs (fun fuel => step p fuel frame) n frame.reports progress := by
  -- What a frame does once a step has been counted.
  have hinst : ∀ {v : Value} {reports : List FaultReport},
      (frame.function.block frame.block).insts[frame.next]? = some v → frame.reports = reports →
      Costs (fun _ => stepInst p frame v) 0 reports progress →
      ∃ n, 0 < n ∧ Costs (fun fuel => step p fuel frame) n frame.reports progress := by
    intro v reports hv hreports hcosts
    refine ⟨1 + 0, by omega, hreports ▸ costs_burn.bind ?_⟩
    simp only [hv]
    exact hcosts
  have hend : ∀ {terminator : Flow.Terminator} {n : Nat},
      (frame.function.block frame.block).insts[frame.next]? = none →
      (frame.function.block frame.block).terminator? = some terminator →
      Costs (fun fuel => stepTerminator p fuel frame terminator) n [] progress →
      ∃ n, 0 < n ∧ Costs (fun fuel => step p fuel frame) n frame.reports progress := by
    intro terminator n hnone hterm hcosts
    have hreports : frame.reports = [] := by
      unfold Frame.reports
      rw [hnone]
    refine ⟨1 + n, by omega, hreports ▸ costs_burn.bind ?_⟩
    simp only [hnone, hterm]
    exact hcosts
  cases h with
  | @param v index content hv hparam hentry hcontent =>
    have hreports : frame.reports = [] := by simp [Frame.reports, hv, hparam, reportsOf]
    refine hinst hv hreports ?_
    unfold stepInst
    have hbound : isBoundParam frame v (.param index) = true := by
      simp [isBoundParam, hentry, hcontent]
    simp only [hparam, hbound, if_true]
    exact .pure _
  | @inst v content after hv hevaluated =>
    have hreports : frame.reports = reportsOf frame (frame.function.inst v) := by
      simp only [Frame.reports, hv]
    refine hinst hv hreports ?_
    have hcosts := hevaluated.costs
    unfold stepInst
    generalize frame.function.inst v = inst at hevaluated hcosts ⊢
    have hbound : isBoundParam frame v inst = false := by cases hevaluated <;> rfl
    cases hevaluated <;> simp only [hbound, Bool.false_eq_true, if_false] <;>
      exact hcosts.after (.pure _)
  | @call v callee arguments f contents hv hcall hf hcontents =>
    have hreports : frame.reports = [] := by simp [Frame.reports, hv, hcall, reportsOf]
    refine hinst hv hreports ?_
    unfold stepInst
    simp only [hcall]
    exact costs_callFrom hf hcontents
  | jump hnone hterm hafter => exact hend hnone hterm (hafter.costs.after (.pure _))
  | branch hnone hterm htaken hafter =>
    exact hend hnone hterm ((Costs.lift htaken).before (hafter.costs.after (.pure _)))
  | ret hnone hterm hcontent =>
    exact hend hnone hterm ((Costs.lift (Frame.read_eq_ok_iff.2 hcontent)).before (.pure _))
  | invoke hnone hterm hcall hf hcontents =>
    refine hend (n := 0) hnone hterm ?_
    simp only [stepTerminator, hcall]
    exact costs_callFrom hf hcontents
  | raise hnone hterm hfault | resume hnone hterm hfault =>
    refine hend hnone hterm (.lift ?_)
    unfold raiseFrom
    rw [Frame.read_eq_ok_iff.2 hfault]
    rfl

theorem Delivered.costs {caller : Frame} {outcome : Outcome} {result : Except Fault Frame}
    (h : Delivered caller outcome result) :
    ∃ n, Costs (fun fuel => deliver fuel caller outcome) n [] result := by
  cases h with
  | returned hwaiting =>
    refine ⟨0, ?_⟩
    simp only [deliver, hwaiting]
    exact .pure _
  | @normal _ _ normal _ _ hwaiting hafter =>
    refine ⟨(caller.function.block normal).phis.length, ?_⟩
    simp only [deliver, hwaiting]
    exact hafter.costs.after (.pure _)
  | @landed _ _ _ unwind _ hwaiting hafter =>
    refine ⟨(caller.function.block unwind).phis.length, ?_⟩
    simp only [deliver, hwaiting]
    exact hafter.costs.after (.pure _)
  | passed hwaiting =>
    refine ⟨0, ?_⟩
    simp only [deliver, hwaiting]
    exact .pure _

/-! ## Activations -/

section

variable {p : Program} {fuel : Nat}

/-- Without fuel an activation makes no step. -/
theorem activation_exhausted {frame : Frame} (bound : Nat) {t : Tally} (h : fuel ≤ t.steps) :
    activation p fuel bound frame t = .error (.fuelExhausted fuel) := by
  cases bound with
  | zero => rfl
  | succ bound =>
    unfold activation
    refine Exec.bind_error ?_
    unfold burn
    rw [if_neg (Nat.not_lt.2 h)]

/-- The bound on nested computations does not matter once it cannot be met. -/
theorem activation_congr {bound bound' : Nat} {frame : Frame} (hwaiting : frame.waiting = none)
    {t : Tally} (h : fuel < bound + t.steps) (h' : fuel < bound' + t.steps) :
    activation p fuel bound frame t = activation p fuel bound' frame t := by
  induction bound generalizing bound' frame t with
  | zero => rw [activation_exhausted 0 (by omega), activation_exhausted bound' (by omega)]
  | succ bound ih =>
    cases bound' with
    | zero => rw [activation_exhausted _ (by omega), activation_exhausted 0 (by omega)]
    | succ bound' =>
      rw [activation_step hwaiting, activation_step hwaiting]
      refine Exec.bind_congr fun progress t₁ hstep => ?_
      obtain ⟨hstepped, -, hlt⟩ := step_ok hstep
      cases progress with
      | going after => exact ih (hstepped.going_waiting.1.trans hwaiting) (by omega) (by omega)
      | ended outcome => rfl
      | calling caller f arguments =>
        refine Exec.bind_congr fun inner t₂ henter => ?_
        obtain ⟨hinner, ht₂⟩ : inner.waiting = none ∧ t₂ = t₁ := by
          rw [Exec.lift_apply] at henter
          cases hframe : Frame.enter f arguments with
          | error e => rw [hframe] at henter; cases henter
          | ok frame =>
            rw [hframe] at henter
            cases henter
            exact ⟨(enter_waiting hframe).1, rfl⟩
        subst ht₂
        have hsame : activation p fuel bound inner t₂ = activation p fuel bound' inner t₂ :=
          ih hinner (by omega) (by omega)
        rw [Exec.bind_apply, Exec.bind_apply, ← hsame]
        cases hinner₂ : activation p fuel bound inner t₂ with
        | error e => rfl
        | ok result =>
          obtain ⟨outcome, t₃⟩ := result
          have hle := (activation_ends hinner t₂ outcome t₃ hinner₂).2
          refine Exec.bind_congr fun delivered t₄ hdeliver => ?_
          obtain ⟨hdelivered, hle'⟩ := deliver_ends fuel caller outcome t₃ delivered t₄ hdeliver
          cases delivered with
          | error fault => rfl
          | ok after => exact ih hdelivered.ok_waiting.1 (by omega) (by omega)

/-- What an activation comes to. -/
def conclude (p : Program) (fuel : Nat) (frame : Frame) : Exec Outcome := fun t =>
  activation p fuel (fuel + 1 - t.steps) frame t

/-- An activation gets from one frame to another, and costs `n` steps until then. -/
def Leads (p : Program) (frame : Frame) (n : Nat) (reports : List FaultReport) (after : Frame) :
    Prop :=
  ∀ (fuel : Nat) (t : Tally), t.steps ≤ fuel → conclude p fuel frame t =
    if t.steps + n ≤ fuel then conclude p fuel after (t.plus n reports)
    else .error (.fuelExhausted fuel)

/-- An activation comes to an outcome. -/
def Closes (p : Program) (frame : Frame) (n : Nat) (reports : List FaultReport)
    (outcome : Outcome) : Prop := Costs (fun fuel => conclude p fuel frame) n reports outcome

/-- An activation has come to no outcome before it has made `n` steps. -/
def Lasts (p : Program) (frame : Frame) (n : Nat) : Prop :=
  ∀ (fuel : Nat) (t : Tally), t.steps ≤ fuel → fuel < t.steps + n →
    conclude p fuel frame t = .error (.fuelExhausted fuel)

section

variable {frame mid after : Frame} {n m : Nat} {reports reports' : List FaultReport}
  {outcome : Outcome}

theorem Leads.rfl' (frame : Frame) : Leads p frame 0 [] frame := by
  intro fuel t ht
  rw [Nat.add_zero, if_pos ht, Tally.plus_zero]

theorem Leads.trans (h : Leads p frame n reports mid) (h' : Leads p mid m reports' after) :
    Leads p frame (n + m) (reports ++ reports') after := by
  intro fuel t ht
  rw [h fuel t ht]
  by_cases hn : t.steps + n ≤ fuel
  · rw [if_pos hn, h' fuel _ hn, Tally.plus_plus, Tally.plus_steps, Nat.add_assoc]
  · rw [if_neg hn, if_neg (by omega)]

theorem Leads.closes (h : Leads p frame n reports mid) (h' : Closes p mid m reports' outcome) :
    Closes p frame (n + m) (reports ++ reports') outcome := by
  intro fuel t ht
  dsimp only
  rw [h fuel t ht]
  by_cases hn : t.steps + n ≤ fuel
  · have hrest := h' fuel (t.plus n reports) hn
    dsimp only at hrest
    rw [if_pos hn, hrest, Tally.plus_plus, Tally.plus_steps, Nat.add_assoc]
  · rw [if_neg hn, if_neg (by omega)]

theorem Leads.lasts (h : Leads p frame n reports mid) (h' : Lasts p mid m) :
    Lasts p frame (n + m) := by
  intro fuel t ht hlt
  rw [h fuel t ht]
  split
  · next hn => exact h' fuel _ hn (by simp only [Tally.plus_steps]; omega)
  · rfl

theorem Lasts.mono (h : Lasts p frame n) (hle : m ≤ n) : Lasts p frame m :=
  fun fuel t ht hlt => h fuel t ht (by omega)

/-- Every activation lasts for no steps. -/
theorem lasts_zero (frame : Frame) : Lasts p frame 0 := by
  intro fuel t ht hlt
  omega

/-- An activation makes a step first. -/
theorem conclude_step (hwaiting : frame.waiting = none) {progress : Progress}
    (h : Costs (fun fuel => step p fuel frame) n reports progress) {t : Tally}
    (ht : t.steps ≤ fuel) : conclude p fuel frame t =
      if t.steps + n ≤ fuel then afterStep p fuel (fuel - t.steps) progress (t.plus n reports)
      else .error (.fuelExhausted fuel) := by
  unfold conclude
  rw [show fuel + 1 - t.steps = fuel - t.steps + 1 by omega, activation_step hwaiting,
    Exec.bind_apply]
  have hstep := h fuel t ht
  dsimp only at hstep
  rw [hstep]
  split <;> rfl

/-- Any bound will do that cannot be met. -/
theorem conclude_eq {bound : Nat} (hwaiting : frame.waiting = none) {t : Tally}
    (h : fuel < bound + t.steps) (ht : t.steps ≤ fuel) :
    activation p fuel bound frame t = conclude p fuel frame t :=
  activation_congr hwaiting h (by omega)

theorem leads_of_step (hwaiting : frame.waiting = none) (h : Stepped p frame (.going after)) :
    ∃ n, 0 < n ∧ Leads p frame n frame.reports after := by
  obtain ⟨n, hn, hcosts⟩ := h.costs
  refine ⟨n, hn, fun fuel t ht => ?_⟩
  rw [conclude_step hwaiting hcosts ht]
  split
  · next hle =>
    have hafter := h.going_waiting.1.trans hwaiting
    exact conclude_eq hafter (by simp only [Tally.plus_steps]; omega) hle
  · rfl

theorem closes_of_step (hwaiting : frame.waiting = none) (h : Stepped p frame (.ended outcome)) :
    ∃ n, Closes p frame n frame.reports outcome := by
  obtain ⟨n, hn, hcosts⟩ := h.costs
  refine ⟨n, fun fuel t ht => ?_⟩
  dsimp only
  rw [conclude_step hwaiting hcosts ht]
  rfl

/-! ### Calls -/

variable {caller inner : Frame} {f : Function} {arguments : List Scalar}

/-- A call runs the function called to its end, and delivers the outcome. -/
theorem conclude_call (hwaiting : frame.waiting = none)
    (h : Stepped p frame (.calling caller f arguments)) (henter : Frame.enter f arguments = .ok inner) :
    ∃ n, 0 < n ∧ ∀ {fuel : Nat} {t : Tally}, t.steps ≤ fuel → conclude p fuel frame t =
      if t.steps + n ≤ fuel then
        (conclude p fuel inner >>= fun outcome => deliver fuel caller outcome >>= fun
          | .ok after => activation p fuel (fuel - t.steps) after
          | .error fault => pure (.unwinding fault)) (t.plus n frame.reports)
      else .error (.fuelExhausted fuel) := by
  obtain ⟨n, hn, hcosts⟩ := h.costs
  refine ⟨n, hn, fun {fuel t} ht => ?_⟩
  rw [conclude_step hwaiting hcosts ht]
  split
  · next hle =>
    have hlift : (liftM (Frame.enter f arguments) : Exec Frame) (t.plus n frame.reports)
        = .ok (inner, t.plus n frame.reports) := by
      rw [henter]
      rfl
    unfold afterStep
    dsimp only
    rw [Exec.bind_ok hlift, Exec.bind_apply, conclude_eq (enter_waiting henter).1
      (by simp only [Tally.plus_steps]; omega) hle]
    rfl
  · rfl

theorem lasts_of_call (hwaiting : frame.waiting = none)
    (h : Stepped p frame (.calling caller f arguments))
    (henter : Frame.enter f arguments = .ok inner) (hinner : Lasts p inner m) :
    Lasts p frame (m + 1) := by
  obtain ⟨n, hn, hcall⟩ := conclude_call hwaiting h henter
  intro fuel t ht hlt
  rw [hcall ht]
  split
  · next hle =>
    exact Exec.bind_error (hinner fuel _ hle (by simp only [Tally.plus_steps]; omega))
  · rfl

/-- The caller goes on with what has been delivered to it. -/
theorem leads_of_call (hwaiting : frame.waiting = none)
    (h : Stepped p frame (.calling caller f arguments))
    (henter : Frame.enter f arguments = .ok inner)
    (hinner : Closes p inner m reports' outcome) (hdelivered : Delivered caller outcome (.ok after)) :
    ∃ n, 0 < n ∧ Leads p frame n (frame.reports ++ reports') after := by
  obtain ⟨n, hn, hcall⟩ := conclude_call hwaiting h henter
  obtain ⟨l, hdeliver⟩ := hdelivered.costs
  refine ⟨n + m + l, by omega, fun fuel t ht => ?_⟩
  rw [hcall ht]
  by_cases hle : t.steps + n ≤ fuel
  · have hboth := hinner.bind (y := fun fuel outcome => deliver fuel caller outcome) hdeliver
    rw [if_pos hle, ← bind_assoc, Exec.bind_apply]
    have hall := hboth fuel (t.plus n frame.reports) hle
    dsimp only at hall
    rw [hall, Tally.plus_plus, Tally.plus_steps, List.append_nil]
    by_cases hle' : t.steps + n + (m + l) ≤ fuel
    · rw [if_pos hle', if_pos (by omega), Nat.add_assoc]
      exact conclude_eq hdelivered.ok_waiting.1 (by simp only [Tally.plus_steps]; omega)
        (by simp only [Tally.plus_steps]; omega)
    · rw [if_neg hle', if_neg (by omega)]
      rfl
  · rw [if_neg hle, if_neg (by omega)]

/-- A fault that the caller does not wait for ends it as well. -/
theorem closes_of_call (hwaiting : frame.waiting = none)
    (h : Stepped p frame (.calling caller f arguments))
    (henter : Frame.enter f arguments = .ok inner)
    (hinner : Closes p inner m reports' outcome) {fault : Fault}
    (hdelivered : Delivered caller outcome (.error fault)) :
    ∃ n, Closes p frame n (frame.reports ++ reports') (.unwinding fault) := by
  obtain ⟨n, hn, hcall⟩ := conclude_call hwaiting h henter
  obtain ⟨l, hdeliver⟩ := hdelivered.costs
  refine ⟨n + m + l, fun fuel t ht => ?_⟩
  dsimp only
  rw [hcall ht]
  by_cases hle : t.steps + n ≤ fuel
  · have hboth := hinner.bind (y := fun fuel outcome => deliver fuel caller outcome) hdeliver
    rw [if_pos hle, ← bind_assoc, Exec.bind_apply]
    have hall := hboth fuel (t.plus n frame.reports) hle
    dsimp only at hall
    rw [hall, Tally.plus_plus, Tally.plus_steps, List.append_nil, Nat.add_assoc n,
      Nat.add_assoc t.steps]
    split <;> rfl
  · rw [if_neg hle, if_neg (by omega)]

end

/-! ## Runs -/

variable {entry : String} {arguments : List Int64} {f : Function} {frame : Frame} {n : Nat}

theorem Program.run_eq_conclude (hf : p.get? entry = some f)
    (henter : Frame.enter f (arguments.map .int) = .ok frame) (fuel : Nat) :
    p.run entry arguments fuel = (conclude p fuel frame ⟨0, #[]⟩).bind fun result =>
      result.1.execution f.name result.2 := by
  obtain ⟨hwaiting, hfunction⟩ := enter_waiting henter
  have hremaining := remaining_activation (p := p) hwaiting [] (t := ⟨0, #[]⟩)
    (Nat.lt_succ_self fuel)
  simp only [afterOutcome_nil, hfunction] at hremaining
  unfold Program.run
  rw [hf]
  dsimp only
  rw [henter]
  exact hremaining

/-- A run has the outcome of the activation that it starts with, if it has enough fuel. -/
theorem Program.run_of_closes (hf : p.get? entry = some f)
    (henter : Frame.enter f (arguments.map .int) = .ok frame) {reports : List FaultReport}
    {outcome : Outcome} (h : Closes p frame n reports outcome) (fuel : Nat) :
    p.run entry arguments fuel = if n ≤ fuel then outcome.execution f.name ⟨n, reports.toArray⟩
      else .error (.fuelExhausted fuel) := by
  rw [run_eq_conclude hf henter]
  have hall := h fuel ⟨0, #[]⟩ (Nat.zero_le _)
  dsimp only at hall
  rw [hall, Nat.zero_add]
  split
  · show outcome.execution f.name (Tally.plus ⟨0, #[]⟩ n reports) = _
    simp [Tally.plus]
  · rfl

theorem Program.run_of_lasts (hf : p.get? entry = some f)
    (henter : Frame.enter f (arguments.map .int) = .ok frame) (h : Lasts p frame n)
    {fuel : Nat} (hlt : fuel < n) : p.run entry arguments fuel = .error (.fuelExhausted fuel) := by
  rw [run_eq_conclude hf henter, h fuel ⟨0, #[]⟩ (Nat.zero_le _) (by omega)]
  rfl

end

end Abacus.Machine
