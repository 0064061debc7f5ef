import Abacus.Proofs.Machine.Nesting

/-!
# Fuel only cuts runs off

How far a run comes depends on its fuel, and nothing else does. Every part of the machine is written for
a given fuel; seen for all fuels at once, it has one result and one cost, and with less fuel than its
cost it stops for want of it.

* `Budget`, `Metered` — one result at one cost, whatever the fuel;
* `metered_step`, `metered_deliver`, `metered_advance` — the parts of the machine are metered;
* `remaining_budget` — a run that has once come to its end without running out has a cost as a whole;
* `Program.run_cut_off` — a run ends with one outcome after one number of steps, or with no fuel at all.
-/

namespace Abacus.Machine

open Abacus.Flow (Function Value Block Inst)

variable {α β : Type}

/-! ## Parts of a run -/

/-- The result is not that fuel ran out. -/
def FuelFree (r : Except RuntimeError α) : Prop := ∀ fuel, r ≠ .error (.fuelExhausted fuel)

/-- From the tally `t` a part of a run, given for every fuel, comes to `r` and has then cost `n` steps;
with less fuel it stops for want of it. -/
structure Budget (x : Nat → Exec α) (t : Tally) (n : Nat) (r : Except RuntimeError (α × Tally)) :
    Prop where
  free : FuelFree r
  steps : ∀ a t', r = .ok (a, t') → t'.steps = t.steps + n
  result : ∀ fuel, t.steps ≤ fuel →
    x fuel t = if t.steps + n ≤ fuel then r else .error (.fuelExhausted fuel)

/-- What a part of a run comes to, and what it costs, does not depend on the fuel. -/
def Metered (x : Nat → Exec α) : Prop := ∀ t, ∃ n r, Budget x t n r

section

variable {x : Nat → Exec α} {y : Nat → α → Exec β}

/-- What looks at no fuel costs nothing. -/
theorem Metered.of_steady {z : Exec α} (hfree : ∀ t, FuelFree (z t))
    (hsteps : ∀ t a t', z t = .ok (a, t') → t'.steps = t.steps) : Metered fun _ => z := by
  refine fun t => ⟨0, z t, hfree t, fun a t' h => hsteps t a t' h, fun fuel ht => ?_⟩
  rw [Nat.add_zero, if_pos ht]

theorem Metered.pure (a : α) : Metered fun _ => pure a := by
  refine .of_steady (fun t fuel => nofun) fun t a' t' h => ?_
  cases h
  rfl

theorem Metered.lift {e : Except RuntimeError α} (h : FuelFree e) : Metered fun _ => liftM e := by
  refine .of_steady (fun t fuel herror => ?_) fun t a t' hok => ?_
  · rw [Exec.lift_apply] at herror
    cases e with
    | error cause =>
      cases herror
      exact h fuel rfl
    | ok a => cases herror
  · rw [(Exec.of_lift_ok hok).2]

theorem Metered.throw {e : RuntimeError} (h : ∀ fuel, e ≠ .fuelExhausted fuel) :
    Metered fun _ => (throw e : Exec α) := by
  refine .of_steady (fun t fuel herror => ?_) fun t a t' hok => ?_
  · cases herror
    exact h fuel rfl
  · cases hok

theorem Metered.bind (hx : Metered x) (hy : ∀ a, Metered fun fuel => y fuel a) :
    Metered fun fuel => x fuel >>= y fuel := by
  intro t
  obtain ⟨n, r, hfirst⟩ := hx t
  cases r with
  | error e =>
    refine ⟨n, .error e, fun fuel h => ?_, nofun, fun fuel ht => ?_⟩
    · cases h
      exact hfirst.free fuel rfl
    · rw [Exec.bind_apply, hfirst.result fuel ht]
      split <;> rfl
  | ok result =>
    obtain ⟨a, t₁⟩ := result
    obtain ⟨m, r', hrest⟩ := hy a t₁
    have hsteps := hfirst.steps a t₁ rfl
    refine ⟨n + m, r', hrest.free, fun b t' h => ?_, fun fuel ht => ?_⟩
    · rw [hrest.steps b t' h, hsteps, Nat.add_assoc]
    · rw [Exec.bind_apply, hfirst.result fuel ht]
      by_cases hn : t.steps + n ≤ fuel
      · rw [if_pos hn]
        have hall := hrest.result fuel (hsteps ▸ hn)
        rw [hsteps, Nat.add_assoc] at hall
        exact hall
      · rw [if_neg hn, if_neg (by omega)]
        rfl

/-- Parts made one after another for the elements of a list. -/
theorem Metered.mapM {f : Nat → α → Exec β} (h : ∀ a, Metered fun fuel => f fuel a) :
    ∀ l : List α, Metered fun fuel => l.mapM (f fuel)
  | [] => .pure []
  | a :: l => by
    simp only [List.mapM_cons]
    exact (h a).bind fun b => (Metered.mapM h l).bind fun bs => .pure _

end

theorem metered_burn : Metered burn := by
  intro t
  refine ⟨1, .ok ((), { t with steps := t.steps + 1 }), nofun, ?_, fun fuel ht => ?_⟩
  · rintro ⟨⟩ t' h
    cases h
    rfl
  · rfl

theorem metered_report (function : String) (code : Int64) :
    Metered fun _ => report function code := by
  refine .of_steady (fun t fuel => nofun) fun t a t' h => ?_
  cases h
  rfl

/-! ## Reading -/

namespace Frame

variable (frame : Frame)

theorem malformed_fuelFree (detail : Malformation) :
    FuelFree (frame.malformed (α := α) detail) := nofun

theorem read_fuelFree (v : Value) : FuelFree (frame.read v) := by
  unfold read
  cases frame.value? v <;> exact nofun

/-- What reads a value and looks at its content runs out of no fuel. -/
theorem read_bind_fuelFree (v : Value) {f : Scalar → Except RuntimeError α}
    (hf : ∀ content, FuelFree (f content)) : FuelFree (frame.read v >>= f) := by
  cases hread : frame.read v with
  | error e => exact fun fuel h => frame.read_fuelFree v fuel (hread.trans (congrArg _ (Except.error.inj h)))
  | ok content => exact hf content

theorem readInt_fuelFree (v : Value) : FuelFree (frame.readInt v) :=
  frame.read_bind_fuelFree v fun content => by cases content <;> exact nofun

theorem readFloat_fuelFree (v : Value) : FuelFree (frame.readFloat v) :=
  frame.read_bind_fuelFree v fun content => by cases content <;> exact nofun

theorem readFault_fuelFree (v : Value) : FuelFree (frame.readFault v) :=
  frame.read_bind_fuelFree v fun content => by cases content <;> exact nofun

theorem mapM_read_fuelFree (vs : List Value) : FuelFree (vs.mapM frame.read) := by
  induction vs with
  | nil => exact nofun
  | cons v vs ih =>
    rw [List.mapM_cons]
    refine frame.read_bind_fuelFree v fun content => ?_
    cases hrest : vs.mapM frame.read with
    | error e => exact fun fuel h => ih fuel (hrest.trans (congrArg _ (Except.error.inj h)))
    | ok contents => exact nofun

theorem enter_fuelFree (f : Function) (arguments : List Scalar) :
    FuelFree (enter f arguments) := by
  unfold enter
  split <;> exact nofun

end Frame

/-! ## Steps -/

theorem metered_incomingValue (frame : Frame) (source target : Block) (phi : Value) :
    Metered fun fuel => incomingValue fuel frame source target phi := by
  refine metered_burn.bind fun _ => ?_
  cases frame.function.inst phi
  case phi incoming =>
    dsimp only
    split
    · exact (Metered.lift (frame.read_fuelFree _)).bind fun content => .pure _
    · exact .lift (frame.malformed_fuelFree _)
  all_goals exact .lift (frame.malformed_fuelFree _)

theorem metered_jump (frame : Frame) (target : Block) :
    Metered fun fuel => jump fuel frame target :=
  (Metered.mapM (fun phi => metered_incomingValue frame frame.block target phi) _).bind fun _ => .pure _

theorem metered_evaluate (frame : Frame) (inst : Inst) : Metered fun _ => evaluate frame inst := by
  have hint : ∀ v, Metered fun _ => (liftM (frame.readInt v) : Exec Int64) :=
    fun v => .lift (frame.readInt_fuelFree v)
  have hfloat : ∀ v, Metered fun _ => (liftM (frame.readFloat v) : Exec Float) :=
    fun v => .lift (frame.readFloat_fuelFree v)
  have hfault : ∀ v, Metered fun _ => (liftM (frame.readFault v) : Exec Fault) :=
    fun v => .lift (frame.readFault_fuelFree v)
  cases inst with
  | intConst n => exact .pure _
  | floatConst x => exact .pure _
  | faultAlloc code typeId => exact .pure _
  | faultTypeId typeId => exact .pure _
  | endCatch => exact .pure _
  | param index => exact .lift (frame.malformed_fuelFree _)
  | phi incoming => exact .lift (frame.malformed_fuelFree _)
  | call callee arguments => exact .lift (frame.malformed_fuelFree _)
  | callUnexpected v => exact .throw nofun
  | intArith op lhs rhs =>
    refine (hint lhs).bind fun a => (hint rhs).bind fun b => ?_
    by_cases hzero : (op = .div && b == 0) = true
    · simp only [hzero, if_true]
      exact (Metered.throw fun fuel h => by cases h).bind fun _ => .pure _
    · simp only [hzero]
      exact .pure _
  | floatArith op lhs rhs => exact (hfloat lhs).bind fun a => (hfloat rhs).bind fun b => .pure _
  | intCompare op lhs rhs => exact (hint lhs).bind fun a => (hint rhs).bind fun b => .pure _
  | floatCompare op lhs rhs => exact (hfloat lhs).bind fun a => (hfloat rhs).bind fun b => .pure _
  | boolToInt v =>
    refine (Metered.lift (frame.read_fuelFree v)).bind fun content => ?_
    cases content
    case bool b => exact .pure _
    all_goals exact .lift (frame.malformed_fuelFree _)
  | intToFloat v => exact (hint v).bind fun n => .pure _
  | floatToInt v => exact (hfloat v).bind fun x => .pure _
  | landingPad =>
    cases hflight : frame.inFlight with
    | some fault =>
      simp only [evaluate, hflight]
      exact .pure _
    | none =>
      simp only [evaluate, hflight]
      exact .lift (frame.malformed_fuelFree _)
  | faultSelector v => exact (hfault v).bind fun fault => .pure _
  | beginCatch v => exact (hfault v).bind fun fault => .pure _
  | reportFault v => exact (hint v).bind fun n => (metered_report _ n).bind fun _ => .pure _

theorem callFrom_fuelFree (p : Program) (frame : Frame) (callee : String) (arguments : List Value)
    (waiting : Waiting) : FuelFree (callFrom p frame callee arguments waiting) := by
  unfold callFrom
  cases p.get? callee with
  | none => exact nofun
  | some f =>
    dsimp only
    cases hread : arguments.mapM frame.read with
    | error e =>
      exact fun fuel h =>
        frame.mapM_read_fuelFree arguments fuel (hread.trans (congrArg _ (Except.error.inj h)))
    | ok contents => exact nofun

theorem isTaken_fuelFree (frame : Frame) (condition : Value) : FuelFree (isTaken frame condition) :=
  frame.read_bind_fuelFree condition fun content => by cases content <;> exact nofun

theorem raiseFrom_fuelFree (frame : Frame) (v : Value) : FuelFree (raiseFrom frame v) :=
  frame.read_bind_fuelFree v fun content => by cases content <;> exact nofun

theorem metered_stepInst (p : Program) (frame : Frame) (v : Value) :
    Metered fun _ => stepInst p frame v := by
  unfold stepInst
  dsimp only
  split
  · exact .lift (callFrom_fuelFree p frame _ _ _)
  · split
    · exact .pure _
    · exact (metered_evaluate frame _).bind fun result => .pure _

theorem metered_stepTerminator (p : Program) (frame : Frame) (terminator : Flow.Terminator) :
    Metered fun fuel => stepTerminator p fuel frame terminator := by
  cases terminator with
  | jump target => exact (metered_jump frame target).bind fun after => .pure _
  | branch condition thenDest elseDest =>
    exact (Metered.lift (isTaken_fuelFree frame condition)).bind fun taken =>
      (metered_jump frame _).bind fun after => .pure _
  | ret v => exact (Metered.lift (frame.read_fuelFree v)).bind fun content => .pure _
  | invoke call normal unwind =>
    simp only [stepTerminator]
    split
    · exact .lift (callFrom_fuelFree p frame _ _ _)
    · exact .lift (frame.malformed_fuelFree _)
  | raise v => exact .lift (raiseFrom_fuelFree frame v)
  | resume v => exact .lift (raiseFrom_fuelFree frame v)
  | unreachable => exact .throw (by rintro fuel ⟨⟩)

theorem metered_step (p : Program) (frame : Frame) : Metered fun fuel => step p fuel frame := by
  refine metered_burn.bind fun _ => ?_
  dsimp only
  split
  · exact metered_stepInst p frame _
  · split
    · exact metered_stepTerminator p frame _
    · exact .lift (frame.malformed_fuelFree _)

/-! ## Returning to callers -/

theorem metered_deliver (caller : Frame) (outcome : Outcome) :
    Metered fun fuel => deliver fuel caller outcome := by
  unfold deliver
  dsimp only
  split
  · exact .pure _
  · exact (metered_jump _ _).bind fun after => .pure _
  · exact (metered_jump _ _).bind fun after => .pure _
  · exact .pure _
  · exact .lift (caller.malformed_fuelFree _)

theorem metered_settle (function : String) (outcome : Outcome) (callers : List Frame) :
    Metered fun fuel => settle fuel function outcome callers := by
  induction callers generalizing function outcome with
  | nil =>
    have hfree : FuelFree (finish function outcome) := by
      rcases outcome with content | fault
      · cases content <;> exact nofun
      · exact nofun
    exact .lift hfree
  | cons caller callers ih =>
    refine (metered_deliver caller outcome).bind fun delivered => ?_
    cases delivered with
    | ok frame => exact .pure _
    | error fault => exact ih _ _

theorem metered_advance (p : Program) (stack : Stack) : Metered fun fuel => advance p fuel stack := by
  refine (metered_step p stack.top).bind fun progress => ?_
  cases progress with
  | going frame => exact .pure _
  | calling caller callee arguments =>
    exact (Metered.lift (Frame.enter_fuelFree callee arguments)).bind fun frame => .pure _
  | ended outcome => exact metered_settle _ outcome _

/-! ## Whole runs -/

variable {p : Program}

/-- A run that does not come to its end has run out of its own fuel. -/
theorem runFrom_free_or (fuel rounds : Nat) (stack : Stack) {t : Tally} (ht : t.steps ≤ fuel) :
    FuelFree (runFrom p fuel rounds stack t) ∨
      runFrom p fuel rounds stack t = .error (.fuelExhausted fuel) := by
  induction rounds generalizing stack t with
  | zero => exact .inr rfl
  | succ rounds ih =>
    obtain ⟨n, r, hfirst⟩ := metered_advance p stack t
    have hadvance := hfirst.result fuel ht
    rw [runFrom, hadvance]
    by_cases hn : t.steps + n ≤ fuel
    · rw [if_pos hn]
      rcases r with e | ⟨status, t₁⟩
      · exact .inl fun fuel h => hfirst.free fuel (by cases h; rfl)
      · have hsteps := hfirst.steps status t₁ rfl
        cases status with
        | running after => exact ih after (hsteps ▸ hn)
        | finished value => exact .inl (by rintro fuel ⟨⟩)
    · rw [if_neg hn]
      exact .inr rfl

/-- A run that comes to its end with some fuel has one result and one cost, whatever the fuel. The
induction is on the rounds that it has made with that fuel. -/
theorem remaining_budget {fuel₀ rounds : Nat} {stack : Stack} {t : Tally} (ht : t.steps ≤ fuel₀)
    (h : FuelFree (runFrom p fuel₀ rounds stack t)) :
    ∃ n r, FuelFree r ∧ (∀ execution, r = .ok execution → execution.steps = t.steps + n) ∧
      ∀ fuel, t.steps ≤ fuel → remaining p fuel stack t =
        if t.steps + n ≤ fuel then r else .error (.fuelExhausted fuel) := by
  induction rounds generalizing stack t with
  | zero => exact absurd rfl (h fuel₀)
  | succ rounds ih =>
    obtain ⟨n, r, hfirst⟩ := metered_advance p stack t
    have hadvance := hfirst.result fuel₀ ht
    have hn : t.steps + n ≤ fuel₀ := by
      by_contra hn
      rw [if_neg hn] at hadvance
      rw [runFrom, hadvance] at h
      exact h fuel₀ rfl
    rw [if_pos hn] at hadvance
    rw [runFrom, hadvance] at h
    have hround : ∀ fuel, t.steps ≤ fuel → remaining p fuel stack t =
        if t.steps + n ≤ fuel then r.bind fun result => afterStatus p fuel result.2 result.1
        else .error (.fuelExhausted fuel) := by
      intro fuel hfuel
      have hresult := hfirst.result fuel hfuel
      rw [remaining_eq, hresult]
      split <;> rfl
    rcases r with e | ⟨status, t₁⟩
    · refine ⟨n, .error e, fun fuel he => hfirst.free fuel (by cases he; rfl), ?_, hround⟩
      rintro execution ⟨⟩
    · have hsteps := hfirst.steps status t₁ rfl
      cases status with
      | finished value =>
        refine ⟨n, .ok ⟨value, t₁.reports.toList, t₁.steps⟩, ?_, ?_, hround⟩
        · rintro fuel ⟨⟩
        · rintro execution ⟨⟩
          exact hsteps
      | running after =>
        obtain ⟨m, r', hfree, hcount, hrest⟩ := ih (hsteps ▸ hn) h
        refine ⟨n + m, r', hfree, fun execution he => ?_, fun fuel hfuel => ?_⟩
        · rw [hcount execution he, hsteps, Nat.add_assoc]
        · rw [hround fuel hfuel]
          by_cases hle : t.steps + n ≤ fuel
          · have hall := hrest fuel (hsteps ▸ hle)
            rw [hsteps, Nat.add_assoc] at hall
            rw [if_pos hle]
            exact hall
          · rw [if_neg hle, if_neg (by omega)]

namespace Program

variable (p : Program) (entry : String) (arguments : List Int64)

/-- The run comes to `r`, which is not that fuel ran out, with every fuel of at least `n`; with any
smaller fuel it runs out of it. An execution takes exactly `n` steps. -/
structure EndsAfter (n : Nat) (r : Except RuntimeError Execution) : Prop where
  free : FuelFree r
  enough : ∀ fuel, n ≤ fuel → p.run entry arguments fuel = r
  less : ∀ fuel, fuel < n → p.run entry arguments fuel = .error (.fuelExhausted fuel)
  steps : ∀ execution, r = .ok execution → execution.steps = n

/-- The run uses up every fuel. -/
def RunsOn : Prop := ∀ fuel, p.run entry arguments fuel = .error (.fuelExhausted fuel)

variable {p entry arguments}

/-- A run that has come to its end with some fuel ends after some number of steps. -/
theorem exists_endsAfter {fuel : Nat} (h : FuelFree (p.run entry arguments fuel)) :
    ∃ n r, p.EndsAfter entry arguments n r := by
  -- A run that does not start gives the same error with every fuel.
  have hconstant : ∀ e : RuntimeError, (∀ fuel, p.run entry arguments fuel = .error e) →
      ∃ n r, p.EndsAfter entry arguments n r := by
    intro e he
    exact ⟨0, .error e, he fuel ▸ h, fun fuel _ => he fuel, nofun, nofun⟩
  cases hf : p.get? entry with
  | none => exact hconstant (.unknownFunction entry) fun fuel => by simp only [run, hf]
  | some f =>
    cases henter : Frame.enter f (arguments.map .int) with
    | error e => exact hconstant e fun fuel => by simp only [run, hf, henter]; rfl
    | ok frame =>
      have hrun : ∀ fuel, p.run entry arguments fuel = remaining p fuel ⟨frame, []⟩ ⟨0, #[]⟩ :=
        fun fuel => by simp only [run, hf, henter]; rfl
      rw [hrun] at h
      obtain ⟨n, r, hfree, hsteps, hresult⟩ := remaining_budget (Nat.zero_le fuel) h
      simp only [Nat.zero_add] at hsteps hresult
      refine ⟨n, r, hfree, fun fuel hn => ?_, fun fuel hn => ?_, hsteps⟩
      · rw [hrun, hresult fuel (Nat.zero_le _), if_pos hn]
      · rw [hrun, hresult fuel (Nat.zero_le _), if_neg (by omega)]

/-- A run that does not come to its end has run out of its own fuel. -/
theorem run_free_or (fuel : Nat) : FuelFree (p.run entry arguments fuel) ∨
    p.run entry arguments fuel = .error (.fuelExhausted fuel) := by
  unfold run
  cases p.get? entry with
  | none => exact .inl nofun
  | some f =>
    dsimp only
    cases henter : Frame.enter f (arguments.map .int) with
    | error e =>
      refine .inl fun fuel h => Frame.enter_fuelFree f (arguments.map .int) fuel ?_
      rw [henter]
      cases h
      rfl
    | ok frame => exact runFrom_free_or fuel _ _ (Nat.zero_le _)

/-- A run that ends has the result of its end whenever it does not run out. -/
theorem EndsAfter.eq_of_free {n fuel : Nat} {r : Except RuntimeError Execution}
    (h : p.EndsAfter entry arguments n r) (hfree : FuelFree (p.run entry arguments fuel)) :
    n ≤ fuel ∧ p.run entry arguments fuel = r := by
  have hn : n ≤ fuel := by
    by_contra hlt
    exact hfree fuel (h.less fuel (Nat.not_le.1 hlt))
  exact ⟨hn, h.enough fuel hn⟩

/-- Fuel only cuts runs off: either there is a number of steps after which the run ends, with the same
outcome for every fuel that is enough, or there is no fuel with which it ends, and not both. So the steps
of an execution are covered by its fuel, and more fuel changes no outcome. -/
theorem run_cut_off (p : Program) (entry : String) (arguments : List Int64) :
    Xor (∃ n r, p.EndsAfter entry arguments n r) (p.RunsOn entry arguments) ∧
    (∀ fuel execution, p.run entry arguments fuel = .ok execution → execution.steps ≤ fuel) ∧
    ∀ fuel fuel', fuel ≤ fuel' → FuelFree (p.run entry arguments fuel) →
      p.run entry arguments fuel' = p.run entry arguments fuel := by
  refine ⟨?_, fun fuel execution h => ?_, fun fuel fuel' hle hfree => ?_⟩
  · by_cases hend : ∃ fuel, FuelFree (p.run entry arguments fuel)
    · obtain ⟨fuel, hfree⟩ := hend
      refine .inl ⟨exists_endsAfter hfree, fun hon => ?_⟩
      exact hfree fuel (hon fuel)
    · have hon : p.RunsOn entry arguments := fun fuel =>
        (run_free_or fuel).resolve_left fun hfree => hend ⟨fuel, hfree⟩
      refine .inr ⟨hon, fun ⟨n, r, hends⟩ => ?_⟩
      exact hends.free n ((hends.enough n (Nat.le_refl n)).symm.trans (hon n))
  · have hfree : FuelFree (p.run entry arguments fuel) := by
      rw [h]
      exact nofun
    obtain ⟨n, r, hends⟩ := exists_endsAfter hfree
    obtain ⟨hn, hr⟩ := hends.eq_of_free hfree
    rw [hends.steps execution (hr.symm.trans h)]
    exact hn
  · obtain ⟨n, r, hends⟩ := exists_endsAfter hfree
    obtain ⟨hn, hr⟩ := hends.eq_of_free hfree
    rw [hr]
    exact hends.enough fuel' (Nat.le_trans hn hle)

end Program

end Abacus.Machine
