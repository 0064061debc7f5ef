import Abacus.Proofs.Machine.Steps

/-!
# The machine evaluates calls as nested computations

The machine keeps callers on a stack of suspended frames. Here a call is evaluated the way one
reads it: `activation` runs a frame to its end, and where the frame calls a function, it runs a
frame of that function to its end first. What the callee comes to is then looked at on the spot.

* `activation` — a frame, to its end;
* `Program.evaluate` — a whole run;
* `activation_step` — the same computation in terms of the machine's `step` and `deliver`;
* `remaining_activation` — a stack of frames runs as its innermost activation does, and then as its
  callers do with the outcome;
* `Program.run_eq_evaluate` — a run gives exactly what the evaluation gives.

Nested computations have no measure of their own that Lean would see fall, so `activation` takes a
bound on the length of the longest chain of them. Each one burns fuel before it starts the next: a
bound larger than the fuel is never met.
-/

namespace Abacus.Machine

open Abacus.Flow (Function Value Block Inst)
open Exec (Ends)

variable {p : Program} {fuel : Nat}

/-! ## Evaluation -/

/-- The new activation that a call makes. -/
def callee (p : Program) (frame : Frame) (name : String) (arguments : List Value) :
    Except RuntimeError Frame :=
  match p.get? name with
  | none => .error (.unknownFunction name)
  | some f => do Frame.enter f (← arguments.mapM frame.read)

/-- An instruction that is no call. Parameters that are bound already keep their values. -/
def instruction (frame : Frame) (v : Value) (inst : Inst) : Exec Frame := do
  if isBoundParam frame v inst then return frame.skip
  else
    let (content, frame) ← evaluate frame inst
    return (frame.assign v content).skip

/-- Runs an activation to its end. -/
def activation (p : Program) (fuel : Nat) : Nat → Frame → Exec Outcome
  | 0, _ => throw (.fuelExhausted fuel)
  | bound + 1, frame => do
    burn fuel
    let info := frame.function.block frame.block
    match info.insts[frame.next]? with
    | some v =>
      match frame.function.inst v with
      | .call name arguments =>
        match ← activation p fuel bound (← callee p frame name arguments) with
        | .returned content => activation p fuel bound (frame.assign v content).skip
        | .unwinding fault => return .unwinding fault
      | inst => activation p fuel bound (← instruction frame v inst)
    | none =>
      match info.terminator? with
      | some (.jump target) => activation p fuel bound (← jump fuel frame target)
      | some (.branch condition thenDest elseDest) =>
        let taken ← isTaken frame condition
        activation p fuel bound (← jump fuel frame (if taken then thenDest else elseDest))
      | some (.ret v) => return .returned (← frame.read v)
      | some (.invoke v normal unwind) =>
        match frame.function.inst v with
        | .call name arguments =>
          match ← activation p fuel bound (← callee p frame name arguments) with
          | .returned content =>
            activation p fuel bound (← jump fuel (frame.assign v content) normal)
          | .unwinding fault =>
            activation p fuel bound (← jump fuel { frame with inFlight := some fault } unwind)
        | _ => frame.malformed (.invokeOf v)
      | some (.raise v) | some (.resume v) =>
        match ← frame.read v with
        | .fault fault => return .unwinding fault
        | _ => frame.malformed (.raiseOf v)
      | some .unreachable => throw (.unreachable frame.function.name)
      | none => frame.malformed (.noTerminator frame.block)

/-- What a run gives when its outermost activation has come to an outcome. -/
def Outcome.execution (function : String) (outcome : Outcome) (tally : Tally) :
    Except RuntimeError Execution :=
  match outcome with
  | .returned (.int n) => .ok ⟨n, tally.reports.toList, tally.steps⟩
  | .returned other => .error (.malformed function (.resultOf other))
  | .unwinding fault => .error (.uncaughtFault function fault.code)

/-- Calls the function `entry` with integers and evaluates it, with fewer than `bound` computations
nested in each other. -/
def Program.evaluate (p : Program) (bound : Nat) (entry : String) (arguments : List Int64)
    (fuel : Nat) : Except RuntimeError Execution :=
  match p.get? entry with
  | none => .error (.unknownFunction entry)
  | some f => do
    let frame ← Frame.enter f (arguments.map .int)
    let (outcome, tally) ← activation p fuel bound frame ⟨0, #[]⟩
    outcome.execution f.name tally

/-! ## Evaluation by the steps of the machine -/

/-- Runs on from what a step has led to. -/
def afterStep (p : Program) (fuel bound : Nat) : Progress → Exec Outcome
  | .going frame => activation p fuel bound frame
  | .calling caller f arguments => do
    let outcome ← activation p fuel bound (← Frame.enter f arguments)
    match ← deliver fuel caller outcome with
    | .ok frame => activation p fuel bound frame
    | .error fault => return .unwinding fault
  | .ended outcome => pure outcome

/-- A call, with what follows its outcome. -/
theorem callFrom_bind (bound : Nat) (frame : Frame) (name : String) (arguments : List Value)
    (waiting : Waiting) :
    ((liftM (callFrom p frame name arguments waiting) : Exec Progress) >>= afterStep p fuel bound)
      = (do
        let outcome ← activation p fuel bound (← callee p frame name arguments)
        match ← deliver fuel { frame with waiting := some waiting } outcome with
        | .ok frame => activation p fuel bound frame
        | .error fault => return .unwinding fault) := by
  unfold callFrom callee
  cases p.get? name with
  | none => rfl
  | some f =>
    cases arguments.mapM frame.read with
    | error e => rfl
    | ok contents => rfl

theorem raiseFrom_bind (bound : Nat) (frame : Frame) (v : Value) :
    ((liftM (raiseFrom frame v) : Exec Progress) >>= afterStep p fuel bound)
      = (do
        match ← frame.read v with
        | .fault fault => return .unwinding fault
        | _ => frame.malformed (.raiseOf v)) := by
  unfold raiseFrom
  cases frame.read v with
  | error e => rfl
  | ok content => cases content <;> rfl

/-- A frame that waits for nothing is itself again after it has waited. -/
theorem resumed_eq {frame : Frame} (hwaiting : frame.waiting = none) :
    { frame with waiting := none } = frame := by
  rw [← hwaiting]

theorem call_bind {frame : Frame} (hwaiting : frame.waiting = none) (bound : Nat) (v : Value)
    (name : String) (arguments : List Value) :
    ((liftM (callFrom p frame name arguments (.call v)) : Exec Progress) >>= afterStep p fuel bound)
      = (do
        match ← activation p fuel bound (← callee p frame name arguments) with
        | .returned content => activation p fuel bound (frame.assign v content).skip
        | .unwinding fault => return .unwinding fault) := by
  rw [callFrom_bind]
  refine bind_congr fun inner => bind_congr fun outcome => ?_
  cases outcome <;> simp [deliver, resumed_eq hwaiting]

theorem invoke_bind {frame : Frame} (hwaiting : frame.waiting = none) (bound : Nat) (v : Value)
    (normal unwind : Block) (name : String) (arguments : List Value) :
    ((liftM (callFrom p frame name arguments (.invoke v normal unwind)) : Exec Progress)
        >>= afterStep p fuel bound)
      = (do
        match ← activation p fuel bound (← callee p frame name arguments) with
        | .returned content =>
          activation p fuel bound (← jump fuel (frame.assign v content) normal)
        | .unwinding fault =>
          activation p fuel bound (← jump fuel { frame with inFlight := some fault } unwind)) := by
  rw [callFrom_bind]
  refine bind_congr fun inner => bind_congr fun outcome => ?_
  cases outcome <;> simp [deliver, resumed_eq hwaiting, hwaiting]

/-- An activation makes a step, and runs on from what the step leads to. -/
theorem activation_step {frame : Frame} (hwaiting : frame.waiting = none) (bound : Nat) :
    activation p fuel (bound + 1) frame = step p fuel frame >>= afterStep p fuel bound := by
  unfold activation step
  rw [bind_assoc]
  refine bind_congr fun _ => ?_
  dsimp only
  cases (frame.function.block frame.block).insts[frame.next]? with
  | some v =>
    dsimp only
    unfold stepInst
    cases frame.function.inst v
    case call name arguments => exact (call_bind hwaiting bound v name arguments).symm
    all_goals
      simp only [instruction]
      split
      · rfl
      · simp only [bind_assoc, pure_bind, afterStep]
  | none =>
    cases (frame.function.block frame.block).terminator? with
    | none => rfl
    | some terminator =>
      cases terminator with
      | jump target => simp only [stepTerminator, bind_assoc, pure_bind, afterStep]
      | branch condition thenDest elseDest =>
        simp only [stepTerminator, bind_assoc, pure_bind, afterStep]
      | ret v => simp only [stepTerminator, bind_assoc, pure_bind, afterStep]
      | invoke v normal unwind =>
        simp only [stepTerminator]
        cases frame.function.inst v
        case call name arguments =>
          exact (invoke_bind hwaiting bound v normal unwind name arguments).symm
        all_goals rfl
      | raise v => exact (raiseFrom_bind bound frame v).symm
      | resume v => exact (raiseFrom_bind bound frame v).symm
      | unreachable => rfl

/-! ## The machine without a limit on its rounds -/

/-- What a stack of frames runs to, with as many rounds as its fuel may need. -/
def remaining (p : Program) (fuel : Nat) (stack : Stack) (t : Tally) :
    Except RuntimeError Execution :=
  runFrom p fuel (fuel + 1 - t.steps) stack t

/-- What becomes of a run that has come to a status. -/
def afterStatus (p : Program) (fuel : Nat) (t : Tally) : Status → Except RuntimeError Execution
  | .running stack => remaining p fuel stack t
  | .finished value => .ok ⟨value, t.reports.toList, t.steps⟩

theorem settle_ends (fuel : Nat) (function : String) (outcome : Outcome) (callers : List Frame) :
    Ends (settle fuel function outcome callers) fun _ => True := by
  induction callers generalizing function outcome with
  | nil => exact .lift fun _ _ => trivial
  | cons caller callers ih =>
    refine (deliver_ends fuel caller outcome).bind fun delivered _ => ?_
    cases delivered with
    | ok frame => exact .pure trivial
    | error fault => exact ih _ _

/-- A step of the program uses fuel. -/
theorem advance_steps {stack : Stack} {t t' : Tally} {status : Status}
    (h : advance p fuel stack t = .ok (status, t')) : t.steps < fuel ∧ t.steps < t'.steps := by
  unfold advance at h
  rw [Exec.bind_apply] at h
  cases hstep : step p fuel stack.top t with
  | error e => rw [hstep] at h; cases h
  | ok result =>
    rw [hstep] at h
    obtain ⟨progress, t₁⟩ := result
    obtain ⟨-, hfuel, hlt⟩ := step_ok hstep
    have hends : t₁.steps ≤ t'.steps := by
      cases progress with
      | going frame =>
        have hpure : Ends (pure (.running ⟨frame, stack.callers⟩)) fun _ : Status => True :=
          .pure trivial
        exact (hpure _ _ _ h).2
      | calling caller f arguments =>
        have hcalled : Ends (do
            let inner ← liftM (Frame.enter f arguments)
            pure (.running ⟨inner, caller :: stack.callers⟩)) fun _ : Status => True :=
          (Ends.lift fun _ _ => trivial).bind fun _ _ => .pure trivial
        exact (hcalled _ _ _ h).2
      | ended outcome => exact (settle_ends _ _ _ _ _ _ _ h).2
    exact ⟨hfuel, Nat.lt_of_lt_of_le hlt hends⟩

/-- Without fuel the program stops. -/
theorem advance_exhausted (stack : Stack) {t : Tally} (h : fuel ≤ t.steps) :
    advance p fuel stack t = .error (.fuelExhausted fuel) := by
  have hburn : burn fuel t = .error (.fuelExhausted fuel) := by
    simp [burn, Nat.not_lt.2 h]
  simp [advance, step, Exec.bind_apply, hburn, Except.bind]

/-- Rounds that the fuel does not allow make no difference. -/
theorem runFrom_congr {rounds rounds' : Nat} {stack : Stack} {t : Tally}
    (h : fuel < rounds + t.steps) (h' : fuel < rounds' + t.steps) :
    runFrom p fuel rounds stack t = runFrom p fuel rounds' stack t := by
  induction rounds generalizing rounds' stack t with
  | zero =>
    cases rounds' with
    | zero => rfl
    | succ rounds' => rw [runFrom, runFrom, advance_exhausted stack (by omega)]
  | succ rounds ih =>
    cases rounds' with
    | zero => rw [runFrom, runFrom, advance_exhausted stack (by omega)]
    | succ rounds' =>
      rw [runFrom, runFrom]
      split
      · rfl
      · next after t' hadvance =>
        have := (advance_steps hadvance).2
        exact ih (by omega) (by omega)
      · rfl

theorem remaining_eq (stack : Stack) (t : Tally) :
    remaining p fuel stack t
      = (advance p fuel stack t).bind fun result => afterStatus p fuel result.2 result.1 := by
  by_cases hfuel : fuel ≤ t.steps
  · have hone : remaining p fuel stack t = runFrom p fuel 1 stack t :=
      runFrom_congr (by omega) (by omega)
    rw [hone, runFrom, advance_exhausted stack hfuel]
    rfl
  · rw [remaining, show fuel + 1 - t.steps = fuel - t.steps + 1 by omega, runFrom]
    cases hadvance : advance p fuel stack t with
    | error e => rfl
    | ok result =>
      obtain ⟨status, t'⟩ := result
      have := (advance_steps hadvance).2
      cases status with
      | running after =>
        show runFrom p fuel (fuel - t.steps) after t'
          = runFrom p fuel (fuel + 1 - t'.steps) after t'
        exact runFrom_congr (by omega) (by omega)
      | finished value => rfl

/-! ## Nested computations and stacks of frames -/

/-- The frames of new activations wait for nothing. -/
theorem enter_waiting {f : Function} {arguments : List Scalar} {frame : Frame}
    (h : Frame.enter f arguments = .ok frame) : frame.waiting = none ∧ frame.function = f := by
  unfold Frame.enter at h
  split at h
  · cases h
    exact ⟨rfl, rfl⟩
  · cases h

/-- Where a step goes on, it goes on in the same activation. -/
theorem Stepped.going_waiting {frame after : Frame} (h : Stepped p frame (.going after)) :
    after.waiting = frame.waiting ∧ after.function = frame.function := by
  cases h with
  | param => exact ⟨rfl, rfl⟩
  | inst _ hinst =>
    rw [hinst.frame_eq]
    exact ⟨rfl, rfl⟩
  | jump _ _ hafter => exact ⟨hafter.waiting_eq, hafter.function_eq⟩
  | branch _ _ _ hafter => exact ⟨hafter.waiting_eq, hafter.function_eq⟩

/-- Where a step calls, the caller is the same activation. -/
theorem Stepped.calling_function {frame caller : Frame} {f : Function} {arguments : List Scalar}
    (h : Stepped p frame (.calling caller f arguments)) : caller.function = frame.function := by
  cases h <;> rfl

/-- A frame that has been delivered what it waited for waits for nothing. -/
theorem Delivered.ok_waiting {caller after : Frame} {outcome : Outcome}
    (h : Delivered caller outcome (.ok after)) :
    after.waiting = none ∧ after.function = caller.function := by
  cases h with
  | returned => exact ⟨rfl, rfl⟩
  | normal _ hafter => exact ⟨hafter.waiting_eq, hafter.function_eq⟩
  | landed _ hafter => exact ⟨hafter.waiting_eq, hafter.function_eq⟩

/-- An activation does not take back steps. -/
theorem activation_ends {bound : Nat} {frame : Frame} (hwaiting : frame.waiting = none) :
    Ends (activation p fuel bound frame) fun _ => True := by
  induction bound generalizing frame with
  | zero => exact .throw _
  | succ bound ih =>
    rw [activation_step hwaiting]
    have hends : Ends (step p fuel frame) (Stepped p frame) :=
      fun t a t' h => ⟨(step_ok h).1, Nat.le_of_lt (step_ok h).2.2⟩
    refine hends.bind fun progress hstep => ?_
    cases progress with
    | going after => exact ih (hstep.going_waiting.1.trans hwaiting)
    | calling caller f arguments =>
      refine (Ends.lift fun inner h => enter_waiting h).bind fun inner hinner =>
        (ih hinner.1).bind fun outcome _ => (deliver_ends fuel caller outcome).bind ?_
      rintro (fault | after) hdelivered
      · exact .pure trivial
      · exact ih hdelivered.ok_waiting.1
    | ended outcome => exact .pure trivial

/-- What becomes of a run when its innermost activation, one of `function`, has come to an outcome
and the given callers are left. -/
def afterOutcome (p : Program) (fuel : Nat) (function : String) (callers : List Frame)
    (outcome : Outcome) (t : Tally) : Except RuntimeError Execution :=
  (settle fuel function outcome callers t).bind fun result =>
    afterStatus p fuel result.2 result.1

theorem afterOutcome_cons (function : String) (caller : Frame) (callers : List Frame)
    (outcome : Outcome) (t : Tally) :
    afterOutcome p fuel function (caller :: callers) outcome t
      = (deliver fuel caller outcome t).bind fun result => match result.1 with
        | .ok after => remaining p fuel ⟨after, callers⟩ result.2
        | .error fault =>
          afterOutcome p fuel caller.function.name callers (.unwinding fault) result.2 := by
  rw [afterOutcome, settle]
  cases hdeliver : deliver fuel caller outcome t with
  | error e =>
    rw [Exec.bind_error hdeliver]
    rfl
  | ok result =>
    rw [Exec.bind_ok hdeliver]
    obtain ⟨delivered, t'⟩ := result
    cases delivered with
    | ok frame => rfl
    | error fault => simp only [afterOutcome, Except.bind]

/-- A new activation on top of its caller: it runs to its outcome, and the caller runs on with
that. -/
theorem remaining_call {bound : Nat}
    (ih : ∀ {frame : Frame}, frame.waiting = none → ∀ callers {t : Tally}, fuel < bound + t.steps →
      remaining p fuel ⟨frame, callers⟩ t = (activation p fuel bound frame t).bind fun result =>
        afterOutcome p fuel frame.function.name callers result.1 result.2)
    {inner : Frame} (hinner : inner.waiting = none) (caller : Frame) (callers : List Frame)
    {t : Tally} (hbound : fuel < bound + t.steps) :
    remaining p fuel ⟨inner, caller :: callers⟩ t
      = ((activation p fuel bound inner >>= fun outcome => do
          match ← deliver fuel caller outcome with
          | .ok frame => activation p fuel bound frame
          | .error fault => return .unwinding fault) t).bind fun result =>
        afterOutcome p fuel caller.function.name callers result.1 result.2 := by
  rw [ih hinner (caller :: callers) hbound]
  cases hrun : activation p fuel bound inner t with
  | error e => rw [Exec.bind_error hrun]; rfl
  | ok result =>
    obtain ⟨outcome, t₁⟩ := result
    rw [Exec.bind_ok hrun]
    simp only [Except.bind, afterOutcome_cons]
    cases hdeliver : deliver fuel caller outcome t₁ with
    | error e => rw [Exec.bind_error hdeliver]
    | ok result =>
      obtain ⟨delivered, t₂⟩ := result
      rw [Exec.bind_ok hdeliver]
      have h₁ := (activation_ends hinner _ _ _ hrun).2
      obtain ⟨hdelivered, h₂⟩ := deliver_ends _ _ _ _ _ _ hdeliver
      cases delivered with
      | ok after =>
        obtain ⟨hafter, hfunction⟩ := hdelivered.ok_waiting
        simp only [ih hafter callers (t := t₂) (by omega), hfunction, Except.bind]
      | error fault => rfl

/-- A stack of frames runs as its innermost activation does, and then as its callers do with the
outcome. -/
theorem remaining_activation {bound : Nat} {frame : Frame} (hwaiting : frame.waiting = none)
    (callers : List Frame) {t : Tally} (hbound : fuel < bound + t.steps) :
    remaining p fuel ⟨frame, callers⟩ t
      = (activation p fuel bound frame t).bind fun result =>
          afterOutcome p fuel frame.function.name callers result.1 result.2 := by
  induction bound generalizing frame callers t with
  | zero =>
    rw [remaining_eq, advance_exhausted _ (by omega)]
    rfl
  | succ bound ih =>
    rw [remaining_eq, activation_step hwaiting]
    unfold advance
    cases hstep : step p fuel frame t with
    | error e => rw [Exec.bind_error hstep, Exec.bind_error hstep]; rfl
    | ok result =>
      obtain ⟨progress, t₁⟩ := result
      obtain ⟨hstepped, -, hlt⟩ := step_ok hstep
      rw [Exec.bind_ok hstep, Exec.bind_ok hstep]
      cases progress with
      | going after =>
        obtain ⟨hafter, hfunction⟩ := hstepped.going_waiting
        rw [← hfunction]
        exact ih (hafter.trans hwaiting) callers (t := t₁) (by omega)
      | calling caller f arguments =>
        rw [← hstepped.calling_function]
        dsimp only [afterStep]
        cases henter : Frame.enter f arguments with
        | error e => rfl
        | ok inner =>
          exact remaining_call ih (enter_waiting henter).1 caller callers (t := t₁) (by omega)
      | ended outcome => rfl

/-! ## Whole runs -/

/-- The outermost activation gives what the run gives. -/
theorem afterOutcome_nil (function : String) (outcome : Outcome) (t : Tally) :
    afterOutcome p fuel function [] outcome t = outcome.execution function t := by
  cases outcome with
  | returned content => cases content <;> rfl
  | unwinding fault => rfl

/-- The machine with its stack of suspended callers gives exactly what the nested evaluation gives:
the value, the reports in order and the number of steps, or the error; and a bound on the nesting
that is larger than the fuel is never met. -/
theorem Program.run_eq_evaluate (p : Program) (entry : String) (arguments : List Int64)
    (fuel extra : Nat) :
    p.run entry arguments fuel = p.evaluate (fuel + 1 + extra) entry arguments fuel := by
  unfold Program.run Program.evaluate
  cases p.get? entry with
  | none => rfl
  | some f =>
    dsimp only
    cases henter : Frame.enter f (arguments.map .int) with
    | error e => rfl
    | ok frame =>
      obtain ⟨hwaiting, hfunction⟩ := enter_waiting henter
      have hbound : fuel < fuel + 1 + extra + (⟨0, #[]⟩ : Tally).steps := by
        rw [Nat.add_zero]
        omega
      have hremaining := remaining_activation (p := p) hwaiting [] hbound
      simp only [afterOutcome_nil, hfunction] at hremaining
      exact hremaining

end Abacus.Machine
