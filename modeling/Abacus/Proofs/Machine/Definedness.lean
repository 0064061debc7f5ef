import Abacus.Proofs.Flow.Placing
import Abacus.Proofs.Flow.Verifying
import Abacus.Proofs.Machine.Steps

/-!
# What is read has been assigned

The verifier compares blocks. An activation assigns values along the edges that it takes, and there is
one value that the block alone does not give: the call of an `invoke` is recorded in the block that it
ends, but only a result assigns it, and a result leads along the edge to `normal`. So the verifier keeps
an activation from reading what has not been assigned if the calls are used behind those edges only.

* `Exec.Fails` — what holds of every error of a part of a run;
* `step_fails`, `deliver_fails` — a value that is read and has not been assigned is one that the next
  instruction, the end of the block or a phi on the edge names;
* `Function.Arrives`, `Function.CallsArrive` — the calls are used behind the edges that their results
  take;
* `Frame.Tracks` — what an activation has assigned on the path by which it has come;
* `run_ne_undefined` — verified functions whose calls arrive read what has been assigned;
* `leaky_reads_undefined` — one in which the call is used behind the other edge does not.
-/

namespace Abacus.Flow.Function

/-- If the value is the call of an `invoke`, control has left its block towards `normal`, by the edge
that results take. -/
def Arrives (f : Function) (v : Value) (way : List Block) : Prop :=
  ∀ normal unwind, (f.block (f.value v).block).terminator? = some (.invoke v normal unwind) →
    normal ≠ unwind ∧ [(f.value v).block, normal] <:+: way

/-- The calls of all `invoke`s are used behind the edges that their results take. -/
structure CallsArrive (f : Function) : Prop where
  uses : ∀ {c p u v}, f.Path p c → u ∈ (f.block c).insts → v ∈ (f.inst u).operands →
    f.Arrives v (p ++ [c])
  ends : ∀ {c p v}, f.Path p c → v ∈ f.terminatorUses c → f.Arrives v (p ++ [c])
  operands : ∀ {q c p phi incoming v}, f.Path p q → c ∈ f.successors q → phi ∈ (f.block c).phis →
    f.inst phi = .phi incoming → (q, v) ∈ incoming → f.Arrives v (p ++ [q, c])

/-- The values that an end reads, itself or for its call, exist. -/
theorem Placed.lt_of_terminatorUses {f : Function} (h : f.Placed) {b : Block} {v : Value}
    (hv : v ∈ f.terminatorUses b) : v.index < f.values.size := by
  unfold terminatorUses at hv
  split at hv
  · next hterm => exact h.ends hterm hv
  · next hterm => exact h.ends hterm hv
  · next hterm => exact h.ends hterm hv
  · next hterm => exact h.ends hterm hv
  · exact h.operands hv
  · simp at hv
  · simp at hv
  · simp at hv

end Abacus.Flow.Function

namespace Abacus.Machine

open Abacus.Flow (Function Value Block Inst)

variable {α β : Type}

/-! ## Errors -/

namespace Exec

/-- Every error of `x` meets `post`. -/
def Fails (x : Exec α) (post : RuntimeError → Prop) : Prop := ∀ t e, x t = .error e → post e

variable {x : Exec α} {post : RuntimeError → Prop}

theorem Fails.mono {post' : RuntimeError → Prop} (h : Fails x post) (himp : ∀ e, post e → post' e) :
    Fails x post' :=
  fun t e hx => himp e (h t e hx)

theorem Fails.pure (a : α) : Fails (pure a) post := by
  intro t e hx
  cases hx

theorem Fails.lift {y : Except RuntimeError α} (h : ∀ e, y = .error e → post e) :
    Fails (liftM y) post := by
  intro t e hx
  rw [lift_apply] at hx
  cases y with
  | error e' => cases hx; exact h e rfl
  | ok a => cases hx

theorem Fails.throw {e : RuntimeError} (h : post e) : Fails (throw e : Exec α) post := by
  intro t e' hx
  cases hx
  exact h

theorem Fails.bind {f : α → Exec β} (hx : Fails x post)
    (hf : ∀ a t t', x t = .ok (a, t') → Fails (f a) post) : Fails (x >>= f) post := by
  intro t e h
  cases hxt : x t with
  | error e' =>
    rw [bind_error hxt] at h
    cases h
    exact hx t e hxt
  | ok result =>
    rw [bind_ok hxt] at h
    exact hf _ _ _ hxt _ e h

/-- Parts made one after another for the elements of a list. -/
theorem Fails.mapM {f : α → Exec β} {l : List α} (h : ∀ a ∈ l, Fails (f a) post) :
    Fails (l.mapM f) post := by
  induction l with
  | nil => exact .pure _
  | cons a l ih =>
    rw [List.mapM_cons]
    refine (h a List.mem_cons_self).bind fun b _ _ _ => ?_
    exact (ih fun c hc => h c (List.mem_cons_of_mem a hc)).bind fun bs _ _ _ => .pure _

end Exec

open Exec (Fails)

/-! ## Reading -/

namespace Frame

/-- If the error is a read of what has not been assigned, the activation has read it itself, as one of
the values `reads`. -/
def Blames (frame : Frame) (reads : Value → Prop) (e : RuntimeError) : Prop :=
  ∀ g v, e = .malformed g (.undefinedRead v) →
    g = frame.function.name ∧ frame.value? v = none ∧ reads v

variable {frame : Frame} {reads : Value → Prop} {v : Value} {e : RuntimeError}

theorem Blames.mono {reads' : Value → Prop} (h : frame.Blames reads e)
    (himp : ∀ v, reads v → reads' v) : frame.Blames reads' e :=
  fun g v he => ⟨(h g v he).1, (h g v he).2.1, himp v (h g v he).2.2⟩

/-- Another malformation is no read of what has not been assigned. -/
theorem malformed_blames {detail : Malformation} (hdetail : ∀ v, detail ≠ .undefinedRead v)
    (h : frame.malformed (α := α) detail = .error e) : frame.Blames reads e := by
  intro g v he
  subst he
  cases h
  exact absurd rfl (hdetail v)

theorem read_blames (h : frame.read v = .error e) : frame.Blames (· = v) e := by
  intro g u he
  subst he
  unfold read at h
  cases hv : frame.value? v with
  | some content => rw [hv] at h; cases h
  | none =>
    rw [hv] at h
    cases h
    exact ⟨rfl, hv, rfl⟩

/-- What is made of a value that has been read fails as the read, or in another way. -/
theorem read_bind_blames {f : Scalar → Except RuntimeError α}
    (hf : ∀ content e, f content = .error e → ∀ g u, e ≠ .malformed g (.undefinedRead u))
    (h : (frame.read v >>= f) = .error e) : frame.Blames (· = v) e := by
  cases hread : frame.read v with
  | error e' =>
    rw [hread] at h
    cases h
    exact read_blames hread
  | ok content =>
    rw [hread] at h
    exact fun g u he => absurd he (hf content e h g u)

theorem readInt_blames (h : frame.readInt v = .error e) : frame.Blames (· = v) e := by
  refine read_bind_blames (fun content e h g u he => ?_) h
  subst he
  cases content <;> cases h

theorem readFloat_blames (h : frame.readFloat v = .error e) : frame.Blames (· = v) e := by
  refine read_bind_blames (fun content e h g u he => ?_) h
  subst he
  cases content <;> cases h

theorem readFault_blames (h : frame.readFault v = .error e) : frame.Blames (· = v) e := by
  refine read_bind_blames (fun content e h g u he => ?_) h
  subst he
  cases content <;> cases h

theorem mapM_read_blames {vs : List Value} (h : vs.mapM frame.read = .error e) :
    frame.Blames (· ∈ vs) e := by
  induction vs with
  | nil => cases h
  | cons v vs ih =>
    rw [List.mapM_cons] at h
    cases hv : frame.read v with
    | error e' =>
      rw [hv] at h
      cases h
      exact (read_blames hv).mono fun u hu => hu ▸ List.mem_cons_self
    | ok content =>
      cases hvs : vs.mapM frame.read with
      | error e' =>
        simp only [hv, hvs] at h
        cases h
        exact (ih hvs).mono fun u hu => List.mem_cons_of_mem v hu
      | ok contents =>
        simp only [hv, hvs] at h
        cases h

/-- The value is an operand, on the edge from the block of the frame, of a phi of `target`. -/
def Passes (frame : Frame) (target : Block) (v : Value) : Prop :=
  ∃ phi ∈ (frame.function.block target).phis, ∃ incoming,
    frame.function.inst phi = .phi incoming ∧ (frame.block, v) ∈ incoming

/-- The next instruction, the end of the block or a phi on an edge from there names the value. -/
inductive Reads (frame : Frame) : Value → Prop
  | inst {u v : Value} (next : (frame.function.block frame.block).insts[frame.next]? = some u)
      (names : v ∈ (frame.function.inst u).operands) : Reads frame v
  | ends {v : Value} (next : (frame.function.block frame.block).insts[frame.next]? = none)
      (names : v ∈ frame.function.terminatorUses frame.block) : Reads frame v
  | edge {target : Block} {v : Value} (next : (frame.function.block frame.block).insts[frame.next]? = none)
      (leads : target ∈ frame.function.successors frame.block)
      (moves : ∀ call normal unwind,
        (frame.function.block frame.block).terminator? ≠ some (.invoke call normal unwind))
      (names : frame.Passes target v) : Reads frame v

end Frame

open Abacus.Machine.Frame (Blames)

theorem burn_fails {frame : Frame} {reads : Value → Prop} (fuel : Nat) :
    Fails (burn fuel) (frame.Blames reads) := by
  intro t e h g v he
  subst he
  unfold burn at h
  split at h <;> cases h

theorem malformed_fails {frame : Frame} {reads : Value → Prop} {detail : Malformation}
    (hdetail : ∀ v, detail ≠ .undefinedRead v) :
    Fails (liftM (frame.malformed (α := α) detail)) (frame.Blames reads) :=
  .lift fun _ h => Frame.malformed_blames hdetail h

theorem incomingValue_fails (fuel : Nat) (frame : Frame) {target : Block} {phi : Value}
    (hphi : phi ∈ (frame.function.block target).phis) :
    Fails (incomingValue fuel frame frame.block target phi) (frame.Blames (frame.Passes target)) := by
  refine (burn_fails fuel).bind fun _ _ _ _ => ?_
  split
  · next incoming hinst =>
    split
    · next edge v hfind =>
      refine (Fails.lift fun e h => (Frame.read_blames h).mono ?_).bind fun _ _ _ _ => .pure _
      rintro u rfl
      have hedge : edge = frame.block := by simpa using List.find?_some hfind
      exact ⟨phi, hphi, incoming, hinst, hedge ▸ List.mem_of_find?_eq_some hfind⟩
    · exact malformed_fails (by simp)
  · exact malformed_fails (by simp)

theorem jump_fails (fuel : Nat) (frame : Frame) (target : Block) :
    Fails (jump fuel frame target) (frame.Blames (frame.Passes target)) :=
  (Fails.mapM fun _ hphi => incomingValue_fails fuel frame hphi).bind fun _ _ _ _ => .pure _

/-! ## One step -/

theorem evaluate_fails (frame : Frame) (inst : Inst) :
    Fails (evaluate frame inst) (frame.Blames (· ∈ inst.operands)) := by
  have hint : ∀ {v}, v ∈ inst.operands →
      Fails (liftM (frame.readInt v)) (frame.Blames (· ∈ inst.operands)) := fun hv =>
    .lift fun e h => (Frame.readInt_blames h).mono fun u hu => hu ▸ hv
  have hfloat : ∀ {v}, v ∈ inst.operands →
      Fails (liftM (frame.readFloat v)) (frame.Blames (· ∈ inst.operands)) := fun hv =>
    .lift fun e h => (Frame.readFloat_blames h).mono fun u hu => hu ▸ hv
  have hfault : ∀ {v}, v ∈ inst.operands →
      Fails (liftM (frame.readFault v)) (frame.Blames (· ∈ inst.operands)) := fun hv =>
    .lift fun e h => (Frame.readFault_blames h).mono fun u hu => hu ▸ hv
  cases inst with
  | intConst | floatConst | faultAlloc | faultTypeId | endCatch => exact .pure _
  | param | phi | call => exact malformed_fails (by simp)
  | intArith op lhs rhs =>
    refine (hint (by simp [Inst.operands])).bind fun a _ _ _ =>
      (hint (by simp [Inst.operands])).bind fun b _ _ _ => ?_
    by_cases hzero : (op = .div && b == 0) = true
    · simp only [hzero, if_true]
      exact (Fails.throw fun g v h => by cases h).bind fun _ _ _ _ => .pure _
    · simp only [hzero]
      exact .pure _
  | floatArith | floatCompare =>
    exact (hfloat (by simp [Inst.operands])).bind fun _ _ _ _ =>
      (hfloat (by simp [Inst.operands])).bind fun _ _ _ _ => .pure _
  | intCompare =>
    exact (hint (by simp [Inst.operands])).bind fun _ _ _ _ =>
      (hint (by simp [Inst.operands])).bind fun _ _ _ _ => .pure _
  | boolToInt v =>
    refine (Fails.lift fun e h => (Frame.read_blames h).mono fun u hu => ?_).bind fun content _ _ _ => ?_
    · simp [Inst.operands, hu]
    · split
      · exact .pure _
      · exact malformed_fails (by simp)
  | intToFloat => exact (hint (by simp [Inst.operands])).bind fun _ _ _ _ => .pure _
  | floatToInt => exact (hfloat (by simp [Inst.operands])).bind fun _ _ _ _ => .pure _
  | landingPad =>
    cases h : frame.inFlight with
    | some fault =>
      simp only [evaluate, h]
      exact .pure _
    | none =>
      simp only [evaluate, h]
      exact malformed_fails (by simp)
  | faultSelector | beginCatch =>
    exact (hfault (by simp [Inst.operands])).bind fun _ _ _ _ => .pure _
  | reportFault v =>
    refine (hint (by simp [Inst.operands])).bind fun n _ _ _ => Fails.bind ?_ fun _ _ _ _ => .pure _
    intro t e h
    cases h
  | callUnexpected v => exact .throw fun g u h => by cases h

theorem callFrom_fails (p : Program) (frame : Frame) (callee : String) (arguments : List Value)
    (waiting : Waiting) :
    Fails (liftM (callFrom p frame callee arguments waiting)) (frame.Blames (· ∈ arguments)) := by
  refine .lift fun e h => ?_
  unfold callFrom at h
  cases hf : p.get? callee with
  | none =>
    rw [hf] at h
    cases h
    exact fun g v he => by cases he
  | some f =>
    rw [hf] at h
    cases hcontents : arguments.mapM frame.read with
    | error e' =>
      simp only [hcontents] at h
      cases h
      exact Frame.mapM_read_blames hcontents
    | ok contents =>
      simp only [hcontents] at h
      cases h

theorem isTaken_fails (frame : Frame) (v : Value) :
    Fails (liftM (isTaken frame v)) (frame.Blames (· = v)) := by
  refine .lift fun e h => Frame.read_bind_blames (fun content e h g u he => ?_) h
  subst he
  cases content <;> cases h

theorem raiseFrom_fails (frame : Frame) (v : Value) :
    Fails (liftM (raiseFrom frame v)) (frame.Blames (· = v)) := by
  refine .lift fun e h => Frame.read_bind_blames (fun content e h g u he => ?_) h
  subst he
  cases content <;> cases h

theorem stepInst_fails (p : Program) (frame : Frame) (v : Value) :
    Fails (stepInst p frame v) (frame.Blames (· ∈ (frame.function.inst v).operands)) := by
  unfold stepInst
  dsimp only
  split
  · next callee arguments hinst =>
    rw [hinst]
    exact callFrom_fails p frame callee arguments _
  · split
    · exact .pure _
    · exact (evaluate_fails frame _).bind fun _ _ _ _ => .pure _

theorem stepTerminator_fails (p : Program) (fuel : Nat) (frame : Frame) {terminator : Flow.Terminator}
    (hend : (frame.function.block frame.block).insts[frame.next]? = none)
    (hterm : (frame.function.block frame.block).terminator? = some terminator) :
    Fails (stepTerminator p fuel frame terminator) (frame.Blames frame.Reads) := by
  have hjump : ∀ {target}, target ∈ terminator.successors → terminator.isInvoke = false →
      Fails (jump fuel frame target) (frame.Blames frame.Reads) := by
    refine fun htarget hmoves => (jump_fails fuel frame _).mono fun e h => h.mono fun u hu =>
      .edge hend (by rwa [Function.successors_eq hterm]) (fun call normal unwind hinvoke => ?_) hu
    rw [hterm] at hinvoke
    cases hinvoke
    cases hmoves
  cases terminator with
  | jump target =>
    exact (hjump (by simp [Flow.Terminator.successors]) rfl).bind fun _ _ _ _ => .pure _
  | branch condition first second =>
    have hread : Fails (liftM (isTaken frame condition)) (frame.Blames frame.Reads) :=
      (isTaken_fails frame condition).mono fun e h => h.mono fun u hu =>
        .ends hend (by simp [Function.terminatorUses, hterm, hu])
    refine hread.bind fun taken _ _ _ => (hjump ?_ rfl).bind fun _ _ _ _ => .pure _
    cases taken <;> simp [Flow.Terminator.successors]
  | ret v =>
    refine (Fails.lift fun e h => (Frame.read_blames h).mono fun u hu => ?_).bind fun _ _ _ _ => .pure _
    exact .ends hend (by simp [Function.terminatorUses, hterm, hu])
  | invoke v normal unwind =>
    simp only [stepTerminator]
    split
    · next callee arguments hinst =>
      refine (callFrom_fails p frame callee arguments _).mono fun e h => h.mono fun u hu => ?_
      exact .ends hend (by simpa [Function.terminatorUses, hterm, hinst, Inst.operands] using hu)
    · exact malformed_fails (by simp)
  | raise v | resume v =>
    refine (raiseFrom_fails frame v).mono fun e h => h.mono fun u hu => ?_
    exact .ends hend (by simp [Function.terminatorUses, hterm, hu])
  | unreachable => exact .throw fun g v h => by cases h

/-- A step that reads a value that has not been assigned reads one that is named there. -/
theorem step_fails (p : Program) (fuel : Nat) (frame : Frame) :
    Fails (step p fuel frame) (frame.Blames frame.Reads) := by
  refine (burn_fails fuel).bind fun _ _ _ _ => ?_
  dsimp only
  split
  · next v hv => exact (stepInst_fails p frame v).mono fun e h => h.mono fun u hu => .inst hv hu
  · next hend =>
    split
    · next terminator hterm => exact stepTerminator_fails p fuel frame hend hterm
    · exact malformed_fails (by simp)

/-- An activation that waited at an `invoke` moves on: as which frame, and to which block. -/
inductive Resumed (caller : Frame) : Outcome → Frame → Block → Prop
  | normal {slot : Value} {content : Scalar} {normal unwind : Block}
      (hwaiting : caller.waiting = some (.invoke slot normal unwind)) :
      Resumed caller (.returned content)
        (({ caller with waiting := none } : Frame).assign slot content) normal
  | landed {slot : Value} {fault : Fault} {normal unwind : Block}
      (hwaiting : caller.waiting = some (.invoke slot normal unwind)) :
      Resumed caller (.unwinding fault)
        { caller with waiting := none, inFlight := some fault } unwind

/-- A caller that moves on reads the operands of the phis on the edge that it takes. -/
theorem deliver_fails (fuel : Nat) (caller : Frame) (outcome : Outcome) :
    Fails (deliver fuel caller outcome) fun e => ∀ g v, e = .malformed g (.undefinedRead v) →
      ∃ frame target, Resumed caller outcome frame target ∧ frame.Blames (frame.Passes target) e := by
  unfold deliver
  dsimp only
  split
  · exact .pure _
  · next content slot normal unwind hwaiting =>
    refine Fails.bind ((jump_fails fuel _ normal).mono fun e h g v he => ?_) fun _ _ _ _ => .pure _
    exact ⟨_, _, .normal hwaiting, h⟩
  · next fault slot normal unwind hwaiting =>
    refine Fails.bind ((jump_fails fuel _ unwind).mono fun e h g v he => ?_) fun _ _ _ _ => .pure _
    exact ⟨_, _, .landed hwaiting, h⟩
  · exact .pure _
  · intro t e h g v he
    subst he
    cases h

/-! ## What has been assigned -/

namespace Frame

/-- The value has been assigned. -/
def Assigned (frame : Frame) (v : Value) : Prop := frame.value? v ≠ none

/-- An activation has come by the path `p`, and has assigned what it has passed. -/
structure Tracks (frame : Frame) (p : List Block) : Prop where
  path : frame.function.Path p frame.block
  size : frame.values.size = frame.function.values.size
  passed : ∀ {b v}, b ∈ p → v ∈ (frame.function.block b).phis ∨ v ∈ (frame.function.block b).insts →
    frame.Assigned v
  phis : ∀ {v}, v ∈ (frame.function.block frame.block).phis → frame.Assigned v
  insts : ∀ {v}, v ∈ (frame.function.block frame.block).insts.toList.take frame.next →
    frame.Assigned v
  calls : ∀ {b v normal unwind},
    (frame.function.block b).terminator? = some (.invoke v normal unwind) → normal ≠ unwind →
    [b, normal] <:+: p ++ [frame.block] → frame.Assigned v

variable {frame after : Frame} {p : List Block} {v u : Value} {content : Scalar} {target : Block}

theorem assigned_assign (h : frame.Assigned u) : (frame.assign v content).Assigned u := by
  unfold Assigned at h ⊢
  by_cases hu : v.index = u.index
  · obtain rfl : v = u := Flow.Value.ext_index hu
    have hlt : v.index < frame.values.size := by
      by_contra hlt
      exact h (by simp [value?, Array.getElem?_eq_none (Nat.not_lt.1 hlt)])
    simp [value?_assign _ _ hlt]
  · rwa [value?_assign_of_ne _ _ hu]

theorem assigned_assign_self (h : v.index < frame.values.size) :
    (frame.assign v content).Assigned v := by
  simp [Assigned, value?_assign _ _ h]

theorem assigned_assignAll {contents : List (Value × Scalar)} (h : frame.Assigned u) :
    (frame.assignAll contents).Assigned u :=
  assignAll_induction (P := fun g => g.Assigned u) (fun _ _ _ h => assigned_assign h) contents h

theorem assigned_assignAll_of_mem {contents : List (Value × Scalar)}
    (h : v ∈ contents.map Prod.fst) (hv : v.index < frame.values.size) :
    (frame.assignAll contents).Assigned v := by
  induction contents generalizing frame with
  | nil => simp at h
  | cons c contents ih =>
    show ((frame.assign c.1 c.2).assignAll contents).Assigned v
    rcases List.mem_cons.1 h with rfl | h
    · exact assigned_assignAll (assigned_assign_self hv)
    · exact ih h (by simpa using hv)

namespace Tracks

theorem assign (h : frame.Tracks p) : (frame.assign v content).Tracks p where
  path := h.path
  size := (frame.size_assign v content).trans h.size
  passed hb hv := assigned_assign (h.passed hb hv)
  phis hv := assigned_assign (h.phis hv)
  insts hv := assigned_assign (h.insts hv)
  calls ht hne hway := assigned_assign (h.calls ht hne hway)

theorem wait (h : frame.Tracks p) (waiting : Option Waiting) (inFlight : Option Fault) :
    ({ frame with waiting := waiting, inFlight := inFlight } : Frame).Tracks p :=
  ⟨h.path, h.size, h.passed, h.phis, h.insts, h.calls⟩

/-- The next instruction has been passed over, its value being assigned. -/
theorem skip (h : frame.Tracks p)
    (hv : (frame.function.block frame.block).insts[frame.next]? = some v) (hassigned : frame.Assigned v) :
    frame.skip.Tracks p where
  path := h.path
  size := h.size
  passed := h.passed
  phis := h.phis
  insts {u} hu := by
    have hnext : (frame.function.block frame.block).insts.toList[frame.next]? = some v := by simpa using hv
    change u ∈ (frame.function.block frame.block).insts.toList.take (frame.next + 1) at hu
    rw [List.take_add_one, hnext, List.mem_append] at hu
    rcases hu with hu | hu
    · exact h.insts hu
    · rw [show u = v by simpa using hu]
      exact hassigned
  calls := h.calls

/-- At the end of its block an activation has assigned all that stands in the blocks it has come
through. -/
theorem stands (h : frame.Tracks p)
    (hend : (frame.function.block frame.block).insts[frame.next]? = none) {b : Block}
    (hb : b ∈ p ++ [frame.block])
    (hv : v ∈ (frame.function.block b).phis ∨ v ∈ (frame.function.block b).insts) :
    frame.Assigned v := by
  rcases List.mem_append.1 hb with hb | hb
  · exact h.passed hb hv
  · obtain rfl := List.mem_singleton.1 hb
    refine hv.elim h.phis fun hv => h.insts ?_
    rw [List.take_of_length_le (by simpa using hend)]
    exact Array.mem_toList_iff.2 hv

/-- Behind the edge that its result takes a call has been assigned, if that is so on the edge on which
control is about to move. -/
theorem assigned_of_call (h : frame.Tracks p)
    (hcall : ∀ v unwind, (frame.function.block frame.block).terminator? =
      some (.invoke v target unwind) → target ≠ unwind → frame.Assigned v)
    {b normal unwind : Block}
    (ht : (frame.function.block b).terminator? = some (.invoke v normal unwind))
    (hne : normal ≠ unwind) (hway : [b, normal] <:+: p ++ [frame.block] ++ [target]) :
    frame.Assigned v := by
  rcases List.infix_concat_iff.1 hway with hsuffix | hway
  · obtain ⟨r, hr⟩ := hsuffix
    have hlast : (r ++ [b]) ++ [normal] = (p ++ [frame.block]) ++ [target] := by simpa using hr
    obtain ⟨hfront, htarget⟩ := List.append_inj' hlast rfl
    obtain ⟨-, hblock⟩ := List.append_inj' hfront rfl
    cases hblock
    cases htarget
    exact hcall v unwind ht hne
  · exact h.calls ht hne hway

/-- Control moves along an edge. A result has been assigned if the edge is one that results take. -/
theorem arrived (h : frame.Tracks p) (hplaced : frame.function.Placed)
    (hend : (frame.function.block frame.block).insts[frame.next]? = none)
    (hedge : target ∈ frame.function.successors frame.block)
    (hcall : ∀ v unwind, (frame.function.block frame.block).terminator? =
      some (.invoke v target unwind) → target ≠ unwind → frame.Assigned v)
    (harrived : frame.Arrived target after) : after.Tracks (p ++ [frame.block]) := by
  obtain ⟨contents, hcontents, rfl⟩ := harrived
  constructor
  case path =>
    show (frame.assignAll contents).function.Path (p ++ [frame.block]) target
    rw [assignAll_function]
    exact .edge h.path hedge
  case size =>
    show (frame.assignAll contents).values.size = (frame.assignAll contents).function.values.size
    rw [assignAll_function, size_assignAll, h.size]
  case passed =>
    intro b v hb hv
    change v ∈ ((frame.assignAll contents).function.block b).phis ∨
      v ∈ ((frame.assignAll contents).function.block b).insts at hv
    rw [assignAll_function] at hv
    exact assigned_assignAll (h.stands hend hb hv)
  case phis =>
    intro v hv
    change v ∈ ((frame.assignAll contents).function.block target).phis at hv
    rw [assignAll_function] at hv
    have htaken : ∀ {phis : List Value}, List.Forall₂ frame.Takes phis contents →
        contents.map Prod.fst = phis := by
      intro phis hphis
      clear hcontents
      induction hphis with
      | nil => rfl
      | cons htakes _ ih => rw [List.map_cons, htakes.1, ih]
    refine assigned_assignAll_of_mem (htaken hcontents ▸ hv) ?_
    rw [h.size]
    exact hplaced.lists (.inl hv)
  case insts =>
    intro v hv
    simp at hv
  case calls =>
    intro b v normal unwind ht hne hway
    change ((frame.assignAll contents).function.block b).terminator? = _ at ht
    rw [assignAll_function] at ht
    exact assigned_assignAll (h.assigned_of_call hcall ht hne hway)

/-- A value of a block on the path has been assigned, unless it is a call that has not arrived. -/
theorem assigned_of_mem (h : frame.Tracks p) (hplaced : frame.function.Placed)
    (hv : v.index < frame.function.values.size) (hmem : (frame.function.value v).block ∈ p)
    (harrives : frame.function.Arrives v (p ++ [frame.block])) : frame.Assigned v := by
  rcases hplaced.stands hv with hphi | hinst | ⟨normal, unwind, ht⟩
  · exact h.passed hmem (.inl hphi)
  · exact h.passed hmem (.inr hinst)
  · exact h.calls ht (harrives normal unwind ht).1 (harrives normal unwind ht).2

/-- What is usable behind the instructions that have been passed over has been assigned. -/
theorem assigned_of_usableAt (h : frame.Tracks p) (hplaced : frame.function.Placed)
    (hv : v.index < frame.function.values.size) {front : List Value}
    (hfront : ∀ u ∈ front, u ∈ (frame.function.block frame.block).insts.toList.take frame.next)
    (husable : frame.function.UsableAt frame.block
      ((frame.function.block frame.block).phis ++ front) v)
    (harrives : frame.function.Arrives v (p ++ [frame.block])) : frame.Assigned v := by
  unfold Function.UsableAt at husable
  split at husable
  · exact (List.mem_append.1 husable).elim h.phis fun hv => h.insts (hfront v hv)
  · next hne =>
    rcases List.mem_append.1 (husable p h.path) with hmem | hmem
    · exact h.assigned_of_mem hplaced hv hmem harrives
    · exact absurd (List.mem_singleton.1 hmem) hne

/-- The operands of the phis on an edge that control takes have been assigned. -/
theorem assigned_of_passes (h : frame.Tracks p) (hplaced : frame.function.Placed)
    (hvalid : frame.function.Valid) (hcalls : frame.function.CallsArrive)
    (hend : (frame.function.block frame.block).insts[frame.next]? = none)
    (hedge : target ∈ frame.function.successors frame.block)
    (hcall : ∀ v unwind, (frame.function.block frame.block).terminator? =
      some (.invoke v target unwind) → target ≠ unwind → frame.Assigned v)
    (hpasses : frame.Passes target v) : frame.Assigned v := by
  obtain ⟨phi, hphi, incoming, hinst, hmem⟩ := hpasses
  have hdominates := hvalid.operands ⟨_, .edge h.path hedge⟩ hphi hinst hmem ⟨p, h.path⟩
  have hway := hcalls.operands h.path hedge hphi hinst hmem
  have hv : v.index < frame.function.values.size := by
    refine hplaced.operands (v := phi) ?_
    rw [hinst]
    exact List.mem_map.2 ⟨_, hmem, rfl⟩
  rcases hplaced.stands hv with hstands | hstands | ⟨normal, unwind, ht⟩
  · exact h.stands hend (hdominates p h.path) (.inl hstands)
  · exact h.stands hend (hdominates p h.path) (.inr hstands)
  · obtain ⟨hne, hinfix⟩ := hway normal unwind ht
    exact h.assigned_of_call hcall ht hne (by simpa using hinfix)

/-- Whatever a step reads has been assigned. -/
theorem assigned_of_reads (h : frame.Tracks p) (hplaced : frame.function.Placed)
    (hvalid : frame.function.Valid) (hcalls : frame.function.CallsArrive)
    (hreads : frame.Reads v) : frame.Assigned v := by
  have hreachable : frame.function.Reachable frame.block := ⟨p, h.path⟩
  cases hreads with
  | @inst u _ hnext hnames =>
    have hnext' : (frame.function.block frame.block).insts.toList[frame.next]? = some u := by
      simpa using hnext
    obtain ⟨hlt, hu⟩ := List.getElem?_eq_some_iff.1 hnext'
    have hsplit : (frame.function.block frame.block).insts.toList =
        (frame.function.block frame.block).insts.toList.take frame.next ++
          u :: (frame.function.block frame.block).insts.toList.drop (frame.next + 1) := by
      rw [← hu, List.getElem_cons_drop, List.take_append_drop]
    exact h.assigned_of_usableAt hplaced (hplaced.operands hnames) (fun _ hu => hu)
      (hvalid.uses hreachable hsplit v hnames)
      (hcalls.uses h.path (Array.mem_of_getElem? hnext) hnames)
  | ends hnext hnames =>
    refine h.assigned_of_usableAt hplaced (hplaced.lt_of_terminatorUses hnames) (fun u hu => ?_)
      (hvalid.endUses hreachable hnames)
      (hcalls.ends h.path hnames)
    rwa [List.take_of_length_le (by simpa using hnext)]
  | edge hnext hleads hmoves hnames =>
    exact h.assigned_of_passes hplaced hvalid hcalls hnext hleads
      (fun call unwind ht => absurd ht (hmoves call _ unwind)) hnames

end Tracks

/-- A new activation has a place for each value of its function. -/
theorem size_enter {f : Function} {arguments : List Scalar} (h : enter f arguments = .ok frame) :
    frame.values.size = f.values.size := by
  unfold enter at h
  split at h
  · cases h
    change Array.size (Array.foldl _ _ _) = f.values.size
    refine Array.foldl_induction (motive := fun _ (values : Array (Option Scalar)) =>
      values.size = f.values.size) (by simp) fun i values hsize => ?_
    split <;> simpa using hsize
  · cases h

/-- A new activation stands at the entry and has passed nothing. -/
theorem tracks_enter {f : Function} {arguments : List Scalar}
    (hphis : (f.block Function.entry).phis = []) (h : enter f arguments = .ok frame) :
    frame.Tracks [] := by
  have hsize := size_enter h
  unfold enter at h
  split at h
  · cases h
    constructor
    case path => exact .entry
    case size => exact hsize
    case passed => intro b v hb; cases hb
    case phis =>
      intro v hv
      rw [hphis] at hv
      cases hv
    case insts => intro v hv; simp at hv
    case calls =>
      intro b v normal unwind _ _ hway
      have := hway.length_le
      simp at this
  · cases h

theorem enter_function {f : Function} {arguments : List Scalar} (h : enter f arguments = .ok frame) :
    frame.function = f := by
  unfold enter at h
  split at h
  · cases h
    rfl
  · cases h

/-- What a waiting activation waits for stands where it has stopped. -/
def Paused (frame : Frame) : Prop :=
  match frame.waiting with
  | some (.call slot) => (frame.function.block frame.block).insts[frame.next]? = some slot
  | some (.invoke slot normal unwind) =>
    (frame.function.block frame.block).insts[frame.next]? = none ∧
      (frame.function.block frame.block).terminator? = some (.invoke slot normal unwind)
  | none => True

end Frame

/-! ## One activation -/

/-- A step stays in its function, and a caller has stopped at its call. -/
theorem Stepped.stays {p : Program} {frame : Frame} {progress : Progress}
    (h : Stepped p frame progress) : match progress with
    | .going after => after.function = frame.function
    | .calling caller callee _ => caller.function = frame.function ∧ caller.Paused ∧
        ∃ name, p.get? name = some callee
    | .ended _ => True := by
  cases h with
  | param | ret | raise | resume => trivial
  | inst _ hinst =>
    show _ = frame.function
    rw [Frame.skip_function, Frame.assign_function, hinst.frame_eq]
  | call hv _ hf => exact ⟨rfl, hv, _, hf⟩
  | jump _ _ hafter | branch _ _ _ hafter => exact hafter.function_eq
  | invoke hend hterm _ hf => exact ⟨rfl, ⟨hend, hterm⟩, _, hf⟩

section

variable {f : Function} (hplaced : f.Placed)
include hplaced

/-- A step goes on along a path, and has assigned what it passes. -/
theorem Stepped.tracks {p : Program} {frame : Frame} {progress : Progress} {way : List Block}
    (h : Stepped p frame progress) (hf : frame.function = f) (htracks : frame.Tracks way) :
    match progress with
    | .going after => ∃ way, after.Tracks way
    | .calling caller _ _ => ∃ way, caller.Tracks way
    | .ended _ => True := by
  subst hf
  have hmoves : ∀ {t target v unwind}, (frame.function.block frame.block).terminator? = some t →
      t.isInvoke = false → (frame.function.block frame.block).terminator? =
        some (.invoke v target unwind) → frame.Assigned v := by
    intro t target v unwind ht hinvoke ht'
    rw [ht] at ht'
    cases ht'
    cases hinvoke
  cases h with
  | ret | raise | resume => trivial
  | param hv hinst hentry hcontent => exact ⟨way, htracks.skip hv (by simp [Frame.Assigned, hcontent])⟩
  | @inst v content after hv hinst =>
    have hlt : v.index < frame.values.size := by
      rw [htracks.size]
      exact hplaced.lists (.inr (.inl (Array.mem_of_getElem? hv)))
    show ∃ way, (after.assign v content).skip.Tracks way
    rw [hinst.frame_eq]
    refine ⟨way, ((htracks.wait _ _).assign).skip hv ?_⟩
    exact Frame.assigned_assign_self hlt
  | call => exact ⟨way, htracks.wait _ _⟩
  | invoke => exact ⟨way, htracks.wait _ _⟩
  | jump hend hterm hafter =>
    refine ⟨_, htracks.arrived hplaced hend ?_ (fun v unwind ht _ => hmoves hterm rfl ht) hafter⟩
    rw [Function.successors_eq hterm]
    simp [Flow.Terminator.successors]
  | @branch _ _ _ taken _ hend hterm htaken hafter =>
    refine ⟨_, htracks.arrived hplaced hend ?_ (fun v unwind ht _ => hmoves hterm rfl ht) hafter⟩
    rw [Function.successors_eq hterm]
    cases taken <;> simp [Flow.Terminator.successors]

/-- A caller that moves on from its `invoke` has assigned the result if it goes where results lead. -/
theorem Resumed.tracks {caller frame : Frame} {outcome : Outcome} {target : Block} {way : List Block}
    (h : Resumed caller outcome frame target) (hf : caller.function = f) (htracks : caller.Tracks way)
    (hpaused : caller.Paused) : frame.function = f ∧ frame.Tracks way ∧
      (frame.function.block frame.block).insts[frame.next]? = none ∧
      target ∈ frame.function.successors frame.block ∧
      ∀ v unwind, (frame.function.block frame.block).terminator? = some (.invoke v target unwind) →
        target ≠ unwind → frame.Assigned v := by
  subst hf
  cases h with
  | @normal slot content _ unwind hwaiting =>
    unfold Frame.Paused at hpaused
    rw [hwaiting] at hpaused
    obtain ⟨hend, hterm⟩ := hpaused
    refine ⟨rfl, (htracks.wait _ _).assign, hend, ?_, fun v unwind' ht _ => ?_⟩
    · show target ∈ caller.function.successors caller.block
      rw [Function.successors_eq hterm]
      simp [Flow.Terminator.successors]
    · change (caller.function.block caller.block).terminator? = _ at ht
      rw [hterm] at ht
      cases ht
      refine Frame.assigned_assign_self ?_
      show slot.index < caller.values.size
      rw [htracks.size]
      exact hplaced.lists (.inr (.inr ⟨_, _, hterm⟩))
  | @landed slot fault normal _ hwaiting =>
    unfold Frame.Paused at hpaused
    rw [hwaiting] at hpaused
    obtain ⟨hend, hterm⟩ := hpaused
    refine ⟨rfl, htracks.wait _ _, hend, ?_, fun v unwind' ht hne => ?_⟩
    · show target ∈ caller.function.successors caller.block
      rw [Function.successors_eq hterm]
      simp [Flow.Terminator.successors]
    · change (caller.function.block caller.block).terminator? = _ at ht
      rw [hterm] at ht
      cases ht
      exact absurd rfl hne

omit hplaced in
/-- A caller that goes on stays in its function. -/
theorem Delivered.function_eq {caller after : Frame} {outcome : Outcome}
    (h : Delivered caller outcome (.ok after)) : after.function = caller.function := by
  cases h with
  | returned => rfl
  | normal _ hafter => exact hafter.function_eq
  | landed _ hafter => exact hafter.function_eq

/-- A caller that goes on does so along a path. -/
theorem Delivered.tracks {caller after : Frame} {outcome : Outcome} {way : List Block}
    (h : Delivered caller outcome (.ok after)) (hf : caller.function = f)
    (htracks : caller.Tracks way) (hpaused : caller.Paused) : ∃ way, after.Tracks way := by
  have hresumed : ∀ {frame target}, Resumed caller outcome frame target →
      frame.Arrived target after → ∃ way, after.Tracks way := by
    intro frame target hresumed hafter
    obtain ⟨rfl, hframe, hend, hedge, hcall⟩ := hresumed.tracks hplaced hf htracks hpaused
    exact ⟨_, hframe.arrived hplaced hend hedge hcall hafter⟩
  cases h with
  | @returned content slot hwaiting =>
    unfold Frame.Paused at hpaused
    rw [hwaiting] at hpaused
    subst hf
    refine ⟨way, ((htracks.wait _ _).assign).skip hpaused (Frame.assigned_assign_self ?_)⟩
    show slot.index < caller.values.size
    rw [htracks.size]
    exact hplaced.lists (.inr (.inl (Array.mem_of_getElem? hpaused)))
  | normal hwaiting hafter => exact hresumed (.normal hwaiting) hafter
  | landed hwaiting hafter => exact hresumed (.landed hwaiting) hafter

end

/-! ## The stack -/

/-- If it is an activation of `f`, it has assigned what it has passed. -/
def Frame.Tracked (f : Function) (frame : Frame) : Prop :=
  frame.function.name = f.name → frame.function = f ∧ ∃ way, frame.Tracks way

/-- The activations of `f` on a stack have assigned what they have passed. -/
structure Stack.Tracked (f : Function) (stack : Stack) : Prop where
  top : stack.top.Tracked f
  callers : ∀ caller ∈ stack.callers, caller.Tracked f ∧ caller.Paused

section

variable {f : Function} (hplaced : f.Placed) (hvalid : f.Valid) (hcalls : f.CallsArrive)
include hplaced hvalid hcalls

/-- The callers to which an outcome goes read what has been assigned. -/
theorem settle_ne_undefined {fuel : Nat} {callers : List Frame}
    (hcallers : ∀ caller ∈ callers, caller.Tracked f ∧ caller.Paused) (name : String)
    (outcome : Outcome) (t : Tally) (v : Value) :
    settle fuel name outcome callers t ≠ .error (.malformed f.name (.undefinedRead v)) := by
  induction callers generalizing name outcome t with
  | nil =>
    intro h
    unfold settle finish at h
    split at h <;> cases h
  | cons caller callers ih =>
    intro h
    unfold settle at h
    cases hdeliver : deliver fuel caller outcome t with
    | ok result =>
      rw [Exec.bind_ok hdeliver] at h
      obtain ⟨result, mid⟩ := result
      cases result with
      | ok frame => cases h
      | error fault => exact ih (fun c hc => hcallers c (List.mem_cons_of_mem _ hc)) _ _ _ h
    | error e =>
      rw [Exec.bind_error hdeliver] at h
      cases h
      obtain ⟨frame, target, hresumed, hblames⟩ := deliver_fails fuel caller outcome t _ hdeliver _ _ rfl
      obtain ⟨hname, hnone, hpasses⟩ := hblames _ _ rfl
      obtain ⟨htracked, hpaused⟩ := hcallers caller List.mem_cons_self
      have hfunction : frame.function = caller.function := by cases hresumed <;> rfl
      obtain ⟨hf, way, htracks⟩ := htracked (by rw [← hfunction, ← hname])
      obtain ⟨rfl, hframe, hend, hedge, hcall⟩ := hresumed.tracks hplaced hf htracks hpaused
      exact hframe.assigned_of_passes hplaced hvalid hcalls hend hedge hcall hpasses hnone

omit hvalid hcalls in
/-- The caller that goes on has assigned what it has passed. -/
theorem settle_tracked {fuel : Nat} {callers : List Frame}
    (hcallers : ∀ caller ∈ callers, caller.Tracked f ∧ caller.Paused) {name : String}
    {outcome : Outcome} {t t' : Tally} {stack : Stack}
    (h : settle fuel name outcome callers t = .ok (.running stack, t')) : stack.Tracked f := by
  induction callers generalizing name outcome t with
  | nil =>
    unfold settle finish at h
    split at h <;> cases h
  | cons caller callers ih =>
    unfold settle at h
    obtain ⟨result, mid, hdeliver, h⟩ := Exec.of_bind_ok h
    have hdelivered := (deliver_ends fuel caller outcome _ _ _ hdeliver).1
    cases result with
    | ok after =>
      cases h
      obtain ⟨htracked, hpaused⟩ := hcallers caller List.mem_cons_self
      refine ⟨fun hname => ?_, fun c hc => hcallers c (List.mem_cons_of_mem _ hc)⟩
      have hfunction : after.function = caller.function := hdelivered.function_eq
      obtain ⟨hf, way, htracks⟩ := htracked (hfunction ▸ hname)
      exact ⟨hfunction.trans hf, hdelivered.tracks hplaced hf htracks hpaused⟩
    | error fault => exact ih (fun c hc => hcallers c (List.mem_cons_of_mem _ hc)) h

/-- A step of a program reads what has been assigned. -/
theorem Stack.Tracked.advance_ne_undefined {stack : Stack} (h : stack.Tracked f) (p : Program)
    (fuel : Nat) (t : Tally) (v : Value) :
    advance p fuel stack t ≠ .error (.malformed f.name (.undefinedRead v)) := by
  intro hadvance
  unfold advance at hadvance
  cases hstep : step p fuel stack.top t with
  | error e =>
    rw [Exec.bind_error hstep] at hadvance
    cases hadvance
    obtain ⟨hname, hnone, hreads⟩ := step_fails p fuel stack.top t _ hstep _ _ rfl
    obtain ⟨rfl, way, htracks⟩ := h.top hname.symm
    exact htracks.assigned_of_reads hplaced hvalid hcalls hreads hnone
  | ok result =>
    rw [Exec.bind_ok hstep] at hadvance
    obtain ⟨progress, mid⟩ := result
    cases progress with
    | going frame => cases hadvance
    | calling caller callee arguments =>
      unfold Frame.enter at hadvance
      dsimp only at hadvance
      split at hadvance <;> cases hadvance
    | ended outcome => exact settle_ne_undefined hplaced hvalid hcalls h.callers _ _ _ _ hadvance

variable {p : Program} (hp : p.get? f.name = some f)
  (hphis : (f.block Function.entry).phis = [])
include hp hphis

omit hplaced hvalid hcalls in
/-- What has been entered has passed nothing. -/
theorem Frame.tracked_enter {name : String} {g : Function} {arguments : List Scalar} {frame : Frame}
    (hg : p.get? name = some g) (h : Frame.enter g arguments = .ok frame) : frame.Tracked f := by
  intro hname
  obtain rfl := Frame.enter_function h
  have hgname : frame.function.name = name := by simpa using List.find?_some hg
  rw [← hgname, hname, hp] at hg
  obtain rfl := Option.some.inj hg
  exact ⟨rfl, _, Frame.tracks_enter hphis h⟩

omit hvalid hcalls in
/-- A step keeps what the activations on the stack have assigned. -/
theorem Stack.Tracked.advance {stack stack' : Stack} (h : stack.Tracked f) {fuel : Nat} {t t' : Tally}
    (hadvance : advance p fuel stack t = .ok (.running stack', t')) : stack'.Tracked f := by
  unfold Machine.advance at hadvance
  obtain ⟨progress, mid, hstep, hadvance⟩ := Exec.of_bind_ok hadvance
  have hstepped := (step_ok hstep).1
  have hstays := hstepped.stays
  cases progress with
  | going after =>
    cases hadvance
    refine ⟨fun hname => ?_, h.callers⟩
    change after.function = stack.top.function at hstays
    obtain ⟨hf, way, htracks⟩ := h.top (hstays ▸ hname)
    exact ⟨hstays.trans hf, hstepped.tracks hplaced hf htracks⟩
  | calling caller callee arguments =>
    obtain ⟨hfunction, hpaused, name, hcallee⟩ := hstays
    obtain ⟨inner, mid', hlift, hrunning⟩ := Exec.of_bind_ok hadvance
    obtain ⟨henter, rfl⟩ := Exec.of_lift_ok hlift
    cases hrunning
    refine ⟨Frame.tracked_enter hp hphis hcallee henter, fun c hc => ?_⟩
    rcases List.mem_cons.1 hc with rfl | hc
    · refine ⟨fun hname => ?_, hpaused⟩
      obtain ⟨hf, way, htracks⟩ := h.top (hfunction ▸ hname)
      exact ⟨hfunction.trans hf, hstepped.tracks hplaced hf htracks⟩
    · exact h.callers c hc
  | ended outcome => exact settle_tracked hplaced h.callers hadvance

/-- A run reads what has been assigned. -/
theorem runFrom_ne_undefined {stack : Stack} (h : stack.Tracked f) (fuel rounds : Nat) (t : Tally)
    (v : Value) : runFrom p fuel rounds stack t ≠ .error (.malformed f.name (.undefinedRead v)) := by
  induction rounds generalizing stack t with
  | zero => exact fun h => by cases h
  | succ rounds ih =>
    intro hrun
    unfold runFrom at hrun
    split at hrun
    · next e hadvance =>
      cases hrun
      exact h.advance_ne_undefined hplaced hvalid hcalls p fuel t v hadvance
    · next stack' t' hadvance => exact ih (h.advance hplaced hp hphis hadvance) t' hrun
    · cases hrun

end

/-! ## Whole runs -/

/-- A function that a builder has made and the verifier has accepted never reads what has not been
assigned, if the calls of its `invoke`s are used behind the edges that their results take. -/
theorem run_ne_undefined {b : Flow.Builder} (hbuilt : b.Built)
    (hphis : (b.function.block Function.entry).phis = []) (hverified : b.function.violation? = none)
    (hcalls : b.function.CallsArrive) {p : Program} (hp : p.get? b.function.name = some b.function)
    (entry : String) (arguments : List Int64) (fuel : Nat) (v : Value) :
    p.run entry arguments fuel ≠ .error (.malformed b.function.name (.undefinedRead v)) := by
  intro hrun
  unfold Program.run at hrun
  split at hrun
  · cases hrun
  · next g hg =>
    cases henter : Frame.enter g (arguments.map .int) with
    | error e =>
      rw [henter] at hrun
      cases hrun
      unfold Frame.enter at henter
      split at henter <;> cases henter
    | ok frame =>
      rw [henter] at hrun
      have htop := Frame.tracked_enter hp hphis hg henter
      exact runFrom_ne_undefined hbuilt.placed.1 (Function.valid_of_violation? hverified) hcalls hp hphis
        ⟨htop, fun caller hcaller => by cases hcaller⟩ fuel _ _ v hrun

/-! ### A call that does not arrive -/

open Abacus.Flow (Builder)

/-- A function that raises a fault. -/
def thrower : Builder :=
  ((Builder.start "thrower" [] .int).push (.faultAlloc 1 1) .fault).2.terminate (.raise ⟨0⟩)

/-- A function that calls it with a handler, and returns the result if there is one. -/
def invoking : Builder :=
  let b := ((Builder.start "caller" [] .int).newBlock "normal").2
  let b := (b.newBlock "unwind").2
  let b := (b.invoke "thrower" [] .int ⟨1⟩ ⟨2⟩).2
  (b.setCurrent ⟨1⟩).terminate (.ret ⟨0⟩)

/-- The handler returns the code of the fault. -/
def handling : Builder :=
  let b := ((invoking.setCurrent ⟨2⟩).push .landingPad .fault).2
  (b.push (.beginCatch ⟨1⟩) .int).2.terminate (.ret ⟨2⟩)

/-- The handler returns the result, although there is none. -/
def leaky : Builder :=
  ((invoking.setCurrent ⟨2⟩).push .landingPad .fault).2.terminate (.ret ⟨0⟩)

theorem invoking_built : invoking.Built :=
  .terminate
    (.setCurrent (.invoke _ _ _ _ (.newBlock _ (.newBlock _ (.start ..))) rfl (by decide)) (by decide))
    rfl rfl (by decide)

theorem handling_built : handling.Built :=
  .terminate (.push _ (.push _ (.setCurrent invoking_built (by decide)) (by decide)) (by decide))
    rfl rfl (by decide)

theorem leaky_built : leaky.Built :=
  .terminate (.push _ (.setCurrent invoking_built (by decide)) (by decide)) rfl rfl (by decide)

/-- The verifier accepts a function that uses the result of a call where the fault of the call arrives:
the value is recorded in a block that dominates the use. A run reads it there. -/
theorem leaky_reads_undefined : leaky.Built ∧ (leaky.function.block Function.entry).phis = [] ∧
    leaky.function.violation? = none ∧
    (Program.mk [thrower.function, leaky.function]).get? leaky.function.name = some leaky.function ∧
    (Program.mk [thrower.function, leaky.function]).run "caller" [] 100 =
      .error (.malformed leaky.function.name (.undefinedRead ⟨0⟩)) :=
  ⟨leaky_built, rfl, by decide +kernel, by decide +kernel, by decide +kernel⟩

/-- The only `invoke` ends the entry. Its call is used in the block behind the edge that its result
takes, and nowhere else. -/
theorem handling_callsArrive : handling.function.CallsArrive := by
  have hblock : ∀ {c : Block}, ¬ c.index < 3 → handling.function.block c = default := fun h =>
    Function.block_of_le (Nat.not_lt.1 h)
  have hends : ∀ i < 3, ∀ v normal unwind,
      (handling.function.block ⟨i⟩).terminator? = some (.invoke v normal unwind) →
        i = 0 ∧ v = ⟨0⟩ ∧ normal = ⟨1⟩ ∧ unwind = ⟨2⟩ := by
    intro i hi v normal unwind ht
    obtain rfl | rfl | rfl : i = 0 ∨ i = 1 ∨ i = 2 := by omega
    · cases ht
      exact ⟨rfl, rfl, rfl, rfl⟩
    · cases ht
    · cases ht
  have harrives : ∀ {v way}, (v = ⟨0⟩ → [Function.entry, ⟨1⟩] <:+: way) →
      handling.function.Arrives v way := by
    intro v way hway normal unwind ht
    by_cases hlt : (handling.function.value v).block.index < 3
    · obtain ⟨hb, rfl, rfl, rfl⟩ := hends _ hlt v normal unwind ht
      rw [show (handling.function.value ⟨0⟩).block = Function.entry from rfl]
      exact ⟨by decide, hway rfl⟩
    · rw [hblock hlt] at ht
      cases ht
  have huses : ∀ i < 3, ∀ u ∈ (handling.function.block ⟨i⟩).insts.toList,
      ⟨0⟩ ∉ (handling.function.inst u).operands := by decide +kernel
  have hused : ∀ i < 3, ⟨0⟩ ∈ handling.function.terminatorUses ⟨i⟩ → i = 1 := by decide +kernel
  have hleads : ∀ i < 3, ⟨1⟩ ∈ handling.function.successors ⟨i⟩ → i = 0 := by decide +kernel
  have hphis : ∀ i < 3, (handling.function.block ⟨i⟩).phis = [] := by decide +kernel
  constructor
  case uses =>
    intro c p u v _ hu hv
    refine harrives fun hv0 => ?_
    by_cases hlt : c.index < 3
    · exact absurd (hv0 ▸ hv) (huses c.index hlt u (Array.mem_toList_iff.2 hu))
    · simp [hblock hlt] at hu
  case ends =>
    intro c p v hp hv
    refine harrives fun hv0 => ?_
    subst hv0
    by_cases hlt : c.index < 3
    · obtain rfl : c = ⟨1⟩ := Flow.Block.ext_index (hused c.index hlt hv)
      cases hp with
      | @edge p q _ _ hedge =>
        have hq := hleads q.index (Function.lt_of_mem_successors hedge) hedge
        obtain rfl : q = Function.entry := Flow.Block.ext_index hq
        exact ⟨p, [], by simp⟩
    · simp [Function.terminatorUses, hblock hlt] at hv
  case operands =>
    intro q c p phi incoming v _ _ hphi
    by_cases hlt : c.index < 3
    · rw [show (handling.function.block c).phis = [] from hphis c.index hlt] at hphi
      cases hphi
    · simp [hblock hlt] at hphi

/-- A handler that does not use the result reads what has been assigned. -/
theorem handling_reads_assigned : handling.Built ∧ handling.function.CallsArrive ∧
    (Program.mk [thrower.function, handling.function]).run "caller" [] 100 ≠
      .error (.malformed handling.function.name (.undefinedRead ⟨0⟩)) :=
  ⟨handling_built, handling_callsArrive,
    run_ne_undefined handling_built rfl (by decide +kernel) handling_callsArrive (by decide +kernel)
      "caller" [] 100 ⟨0⟩⟩

end Abacus.Machine
