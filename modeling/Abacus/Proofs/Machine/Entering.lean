import Abacus.Proofs.Machine.Costs
import Abacus.Proofs.Machine.Definedness

/-!
# Entering a block

The phis of a block take their values all at once. All of them are read before the first is assigned, so
phis that are operands of each other exchange their contents, and the order in which a block lists its
phis makes no difference.

* `InPlace` — parts of a run that change an activation where it stands; `InPlace.jump_eq` says that moving
  along an edge in this way assigns all phis or none;
* `Frame.Sized` — an activation has a place for each value of its function, at all times in a run;
* `Frame.Ready`, `Frame.MovedTo` — all phis have something to take; they have taken it;
* `Enters` — a run comes to where a block is entered;
* `phis_assigned_together` — blocks are entered in this way and in no other.
-/

namespace Abacus.Flow.Function

variable (f : Function) (b : Block) {phis : List Value}

/-- The function with the phis of a block listed in another way. -/
def listing (phis : List Value) : Function :=
  { f with blocks := f.blocks.modify b.index fun info => { info with phis := phis } }

theorem phis_listing (h : phis.Perm (f.block b).phis) : ((f.listing b phis).block b).phis = phis := by
  unfold block listing at *
  by_cases hb : b.index < f.blocks.size
  · simp [hb, Array.getElem_modify]
  · -- A block that does not exist has no phis to list.
    have hnone : phis = [] := by simpa [hb] using h
    simp [hb, hnone]

theorem lt_of_phi {v : Value} {incoming : List (Block × Value)} (h : f.inst v = .phi incoming) :
    v.index < f.values.size := by
  by_contra hv
  rw [inst, value, Array.getD_eq_getD_getElem?, Array.getElem?_eq_none (Nat.not_lt.1 hv)] at h
  cases h

end Abacus.Flow.Function

namespace Abacus.Machine

open Abacus.Flow (Function Value Block)

variable {α β : Type}

/-! ## In place -/

/-- A part of a run that changes an activation where it stands. What it has assigned before an error stays
assigned. -/
abbrev InPlace (α : Type) := StateT Tally (ExceptT RuntimeError (StateM Frame)) α

namespace InPlace

/-- Something is done with the activation as it is now; it is not changed. -/
def look (x : Frame → Exec α) : InPlace α := fun tally frame => (x frame tally, frame)

/-- The activation is changed. -/
def change (f : Frame → Frame) : InPlace Unit := fun tally frame => (.ok ((), tally), f frame)

/-- Control moves from the block of the activation to `target`: one phi after the other is read, then one
after the other is assigned, and then the activation stands at the beginning of `target`. -/
def jump (fuel : Nat) (target : Block) : InPlace Unit := do
  let (source, phis) ← look fun frame => return (frame.block, (frame.function.block target).phis)
  let contents ← phis.mapM fun phi => look fun frame => incomingValue fuel frame source target phi
  contents.forM fun (phi, content) => change fun frame => frame.assign phi content
  change fun frame => { frame with block := target, next := 0 }

section

variable {x : InPlace α} {f : α → InPlace β} {t t' : Tally} {frame after : Frame}

theorem bind_ok {a : α} (h : x t frame = (.ok (a, t'), after)) : (x >>= f) t frame = f a t' after := by
  show (fun r : Except RuntimeError (α × Tally) × Frame =>
    (ExceptT.bindCont (fun r => f r.1 r.2) r.1 : StateM Frame _) r.2) (x t frame) = _
  rw [h]
  rfl

theorem bind_error {e : RuntimeError} (h : x t frame = (.error e, after)) :
    (x >>= f) t frame = (.error e, after) := by
  show (fun r : Except RuntimeError (α × Tally) × Frame =>
    (ExceptT.bindCont (fun r => f r.1 r.2) r.1 : StateM Frame _) r.2) (x t frame) = _
  rw [h]
  rfl

end

/-- What looks at the activation for one element of a list after the other leaves it as it is. -/
theorem mapM_look (x : α → Frame → Exec β) (l : List α) (t : Tally) (frame : Frame) :
    (l.mapM fun a => look (x a)) t frame = ((l.mapM fun a => x a frame) t, frame) := by
  induction l generalizing t with
  | nil => rfl
  | cons a l ih =>
    rw [List.mapM_cons, List.mapM_cons]
    cases hfirst : x a frame t with
    | error e => rw [bind_error (congrArg (·, frame) hfirst), Exec.bind_error hfirst]
    | ok result =>
      rw [bind_ok (congrArg (·, frame) hfirst), Exec.bind_ok hfirst]
      cases hrest : (l.mapM fun a => x a frame) result.2 with
      | error e => rw [bind_error ((ih _).trans (congrArg (·, frame) hrest)), Exec.bind_error hrest]
      | ok results =>
        rw [bind_ok ((ih _).trans (congrArg (·, frame) hrest)), Exec.bind_ok hrest]
        rfl

theorem forM_assign (contents : List (Value × Scalar)) (t : Tally) (frame : Frame) :
    (contents.forM fun (phi, content) => change fun frame => frame.assign phi content) t frame =
      (.ok ((), t), frame.assignAll contents) := by
  induction contents generalizing frame with
  | nil => rfl
  | cons c contents ih => exact ih (frame.assign c.1 c.2)

/-- Moving along an edge in place assigns all phis, or it stops with none of them assigned. -/
theorem jump_eq (fuel : Nat) (target : Block) (t : Tally) (frame : Frame) :
    jump fuel target t frame = match Machine.jump fuel frame target t with
      | .ok (after, t') => (.ok ((), t'), after)
      | .error e => (.error e, frame) := by
  have hread := mapM_look (fun phi frame' => incomingValue fuel frame' frame.block target phi)
    (frame.function.block target).phis t frame
  unfold jump Machine.jump
  have hstart : look (fun frame => pure (frame.block, (frame.function.block target).phis)) t frame =
      (.ok ((frame.block, (frame.function.block target).phis), t), frame) := rfl
  rw [bind_ok hstart]
  dsimp only
  cases hcontents : ((frame.function.block target).phis.mapM
      (incomingValue fuel frame frame.block target)) t with
  | error e => rw [bind_error (hread.trans (congrArg (·, frame) hcontents)), Exec.bind_error hcontents]
  | ok result =>
    rw [bind_ok (hread.trans (congrArg (·, frame) hcontents)), Exec.bind_ok hcontents,
      bind_ok (forM_assign _ _ _)]
    rfl

end InPlace

/-! ## Places for values -/

namespace Frame

/-- An activation has a place for each value of its function. -/
def Sized (frame : Frame) : Prop := frame.values.size = frame.function.values.size

variable {frame after : Frame} {target : Block} {v : Value}

theorem Sized.assign (h : frame.Sized) (v : Value) (content : Scalar) : (frame.assign v content).Sized :=
  (frame.size_assign v content).trans h

theorem Sized.wait (h : frame.Sized) (waiting : Option Waiting) (inFlight : Option Fault) :
    ({ frame with waiting := waiting, inFlight := inFlight } : Frame).Sized := h

theorem Sized.arrived (h : frame.Sized) (harrived : frame.Arrived target after) : after.Sized := by
  obtain ⟨contents, -, rfl⟩ := harrived
  have hfunction := frame.assignAll_function contents
  show (frame.assignAll contents).values.size = (frame.assignAll contents).function.values.size
  rw [size_assignAll, hfunction, h]

theorem sized_enter {f : Function} {arguments : List Scalar} (h : enter f arguments = .ok frame) :
    frame.Sized := by
  rw [Sized, size_enter h, enter_function h]

end Frame

open Abacus.Machine.Frame (Sized)

/-- A step keeps the places of its activation. -/
theorem Stepped.sized {p : Program} {frame : Frame} {progress : Progress} (h : Stepped p frame progress)
    (hframe : frame.Sized) : match progress with
    | .going after => after.Sized
    | .calling caller _ _ => caller.Sized
    | .ended _ => True := by
  cases h with
  | ret | raise | resume => trivial
  | param | call | invoke => exact hframe
  | @inst v content after hv hinst =>
    show (after.assign v content).Sized
    rw [hinst.frame_eq]
    exact (hframe.wait _ _).assign v content
  | jump _ _ hafter | branch _ _ _ hafter => exact hframe.arrived hafter

/-- A caller that goes on keeps its places. -/
theorem Delivered.sized {caller after : Frame} {outcome : Outcome}
    (h : Delivered caller outcome (.ok after)) (hcaller : caller.Sized) : after.Sized := by
  cases h with
  | returned _ => exact (hcaller.wait _ _).assign _ _
  | normal _ hafter => exact ((hcaller.wait _ _).assign _ _).arrived hafter
  | landed _ hafter => exact (hcaller.wait _ _).arrived hafter

/-- The activations on a stack have their places. -/
def Stack.Sized (stack : Stack) : Prop := ∀ frame ∈ stack.top :: stack.callers, frame.Sized

/-- The caller that goes on, and those below it, keep their places. -/
theorem settle_sized {fuel : Nat} {name : String} {outcome : Outcome} {callers : List Frame}
    {t t' : Tally} {stack : Stack} (hcallers : ∀ caller ∈ callers, caller.Sized)
    (h : settle fuel name outcome callers t = .ok (.running stack, t')) : stack.Sized := by
  induction callers generalizing name outcome t with
  | nil =>
    unfold settle finish at h
    split at h <;> cases h
  | cons caller callers ih =>
    obtain ⟨hcaller, hbelow⟩ := List.forall_mem_cons.1 hcallers
    unfold settle at h
    obtain ⟨result, mid, hdeliver, h⟩ := Exec.of_bind_ok h
    cases result with
    | ok after =>
      cases h
      exact List.forall_mem_cons.2 ⟨(deliver_ends _ _ _ _ _ _ hdeliver).1.sized hcaller, hbelow⟩
    | error fault => exact ih hbelow h

/-- A step of a program keeps the places of all activations. -/
theorem Stack.Sized.advance {p : Program} {fuel : Nat} {stack stack' : Stack} {t t' : Tally}
    (h : stack.Sized) (hadvance : advance p fuel stack t = .ok (.running stack', t')) : stack'.Sized := by
  obtain ⟨htop, hcallers⟩ := List.forall_mem_cons.1 h
  unfold Machine.advance at hadvance
  obtain ⟨progress, mid, hstep, hadvance⟩ := Exec.of_bind_ok hadvance
  have hsized := (step_ok hstep).1.sized htop
  cases progress with
  | going after =>
    cases hadvance
    exact List.forall_mem_cons.2 ⟨hsized, hcallers⟩
  | calling caller callee arguments =>
    obtain ⟨inner, mid', hlift, hrunning⟩ := Exec.of_bind_ok hadvance
    obtain ⟨henter, rfl⟩ := Exec.of_lift_ok hlift
    cases hrunning
    exact List.forall_mem_cons.2
      ⟨Frame.sized_enter henter, List.forall_mem_cons.2 ⟨hsized, hcallers⟩⟩
  | ended outcome => exact settle_sized hcallers hadvance

/-- A run with some fuel comes to a stack with some tally. -/
inductive Reaches (p : Program) (fuel : Nat) : Stack → Tally → Prop
  | enter {name : String} {f : Function} {arguments : List Scalar} {frame : Frame}
      (hf : p.get? name = some f) (henter : Frame.enter f arguments = .ok frame) :
      Reaches p fuel ⟨frame, []⟩ ⟨0, #[]⟩
  | advance {stack stack' : Stack} {t t' : Tally} (h : Reaches p fuel stack t)
      (hadvance : Machine.advance p fuel stack t = .ok (.running stack', t')) : Reaches p fuel stack' t'

/-- At all times in a run the activations have their places. -/
theorem Reaches.sized {p : Program} {fuel : Nat} {stack : Stack} {t : Tally} (h : Reaches p fuel stack t) :
    stack.Sized := by
  induction h with
  | enter _ henter => exact List.forall_mem_singleton.2 (Frame.sized_enter henter)
  | advance _ hadvance ih => exact ih.advance hadvance

/-! ## All phis at once -/

namespace Frame

/-- The operand of a phi for the edge from the block of the frame: the first one listed for that block. -/
def operand? (frame : Frame) (phi : Value) : Option Value :=
  match frame.function.inst phi with
  | .phi incoming => (incoming.find? fun operand => operand.1 = frame.block).map Prod.snd
  | _ => none

/-- Each phi of `target` has an operand for the edge from the block of the frame, and that has been
assigned. -/
def Ready (frame : Frame) (target : Block) : Prop :=
  ∀ phi ∈ (frame.function.block target).phis, ∃ v ∈ frame.operand? phi, frame.Assigned v

instance (frame : Frame) (v : Value) : Decidable (frame.Assigned v) :=
  inferInstanceAs (Decidable (frame.value? v ≠ none))

instance (frame : Frame) (target : Block) : Decidable (frame.Ready target) :=
  inferInstanceAs (Decidable (∀ phi ∈ (frame.function.block target).phis,
    ∃ v ∈ frame.operand? phi, frame.Assigned v))

/-- The activation has moved to `target`. Each phi of `target` holds what its operand held before, and
nothing else has changed. -/
structure MovedTo (frame : Frame) (target : Block) (after : Frame) : Prop where
  phis : ∀ phi ∈ (frame.function.block target).phis, ∀ v ∈ frame.operand? phi,
    after.value? phi = frame.value? v
  others : ∀ v ∉ (frame.function.block target).phis, after.value? v = frame.value? v
  size : after.values.size = frame.values.size
  rest : after = { frame with values := after.values, block := target, next := 0 }

/-- The frame of the function that lists the phis of a block in another way. -/
def listing (frame : Frame) (target : Block) (phis : List Value) : Frame :=
  { frame with function := frame.function.listing target phis }

variable {frame after after' : Frame} {target : Block} {phi v : Value} {content : Scalar}

theorem mem_operand? : v ∈ frame.operand? phi ↔ ∃ incoming edge, frame.function.inst phi = .phi incoming ∧
    incoming.find? (fun operand => operand.1 = frame.block) = some edge ∧ edge.2 = v := by
  unfold operand?
  split
  · next incoming hinst => simp [hinst]
  · next hinst => exact ⟨nofun, fun ⟨incoming, _, hphi, _⟩ => absurd hphi (hinst incoming)⟩

theorem takes_iff : frame.Takes phi (phi, content) ↔
    ∃ v ∈ frame.operand? phi, frame.value? v = some content := by
  constructor
  · rintro ⟨-, incoming, edge, hinst, hfind, hvalue⟩
    exact ⟨edge.2, mem_operand?.2 ⟨incoming, edge, hinst, hfind, rfl⟩, hvalue⟩
  · rintro ⟨v, hv, hvalue⟩
    obtain ⟨incoming, edge, hinst, hfind, rfl⟩ := mem_operand?.1 hv
    exact ⟨rfl, incoming, edge, hinst, hfind, hvalue⟩

/-- Only a block whose phis are ready is entered. -/
theorem Arrived.ready (h : frame.Arrived target after) : frame.Ready target := by
  obtain ⟨contents, htakes, -⟩ := h
  unfold Ready
  generalize (frame.function.block target).phis = phis at htakes ⊢
  induction htakes with
  | nil => simp
  | @cons phi taken phis contents hfirst _ ih =>
    obtain ⟨phi', content⟩ := taken
    obtain rfl : phi' = phi := hfirst.1
    obtain ⟨v, hv, hvalue⟩ := takes_iff.1 hfirst
    refine List.forall_mem_cons.2 ⟨⟨v, hv, ?_⟩, ih⟩
    rw [Assigned, hvalue]
    exact Option.some_ne_none _

/-- A block whose phis are ready is entered. -/
theorem Ready.movedTo (h : frame.Ready target) (hsized : frame.Sized) :
    ∃ after, frame.Arrived target after ∧ frame.MovedTo target after := by
  let phis := (frame.function.block target).phis
  -- What each phi takes.
  let content : Value → Scalar := fun phi => ((frame.operand? phi).bind frame.value?).getD .unit
  have hcontent : ∀ phi ∈ phis, ∃ v ∈ frame.operand? phi, frame.value? v = some (content phi) := by
    intro phi hphi
    obtain ⟨v, hv, hassigned⟩ := h phi hphi
    obtain ⟨taken, htaken⟩ := Option.ne_none_iff_exists'.1 hassigned
    refine ⟨v, hv, ?_⟩
    simp only [content, Option.mem_def.1 hv, Option.bind_some, htaken, Option.getD_some]
  have hlt : ∀ phi ∈ phis, phi.index < frame.values.size := by
    intro phi hphi
    obtain ⟨v, hv, -⟩ := h phi hphi
    obtain ⟨incoming, edge, hinst, -⟩ := mem_operand?.1 hv
    exact hsized.symm ▸ frame.function.lt_of_phi hinst
  have hvalue : ∀ v, (frame.assignAll (phis.map fun phi => (phi, content phi))).value? v =
      if v ∈ phis then some (content v) else frame.value? v := value?_assignAll phis hlt
  refine ⟨{ frame.assignAll (phis.map fun phi => (phi, content phi)) with block := target, next := 0 },
    ⟨_, ?_, rfl⟩, ?_⟩
  · rw [List.forall₂_map_right_iff]
    exact List.forall₂_same.2 fun phi hphi => takes_iff.2 (hcontent phi hphi)
  constructor
  case phis =>
    intro phi hphi v hv
    obtain ⟨v', hv', htaken⟩ := hcontent phi hphi
    obtain rfl := Option.mem_unique hv hv'
    exact (hvalue phi).trans ((if_pos hphi).trans htaken.symm)
  case others => exact fun v hv => (hvalue v).trans (if_neg hv)
  case size => exact frame.size_assignAll _
  case rest =>
    generalize hassigned : phis.map (fun phi => (phi, content phi)) = contents
    have hfunction := frame.assignAll_function contents
    have hwaiting := frame.assignAll_waiting contents
    have hinFlight := frame.assignAll_inFlight contents
    simp only [hfunction, hwaiting, hinFlight]

/-- There is one way to enter a block whose phis are ready. -/
theorem MovedTo.unique (h : frame.MovedTo target after) (h' : frame.MovedTo target after')
    (hready : frame.Ready target) : after = after' := by
  have hvalue : ∀ v, after.value? v = after'.value? v := by
    intro v
    by_cases hv : v ∈ (frame.function.block target).phis
    · obtain ⟨operand, hoperand, -⟩ := hready v hv
      rw [h.phis v hv operand hoperand, h'.phis v hv operand hoperand]
    · rw [h.others v hv, h'.others v hv]
  have hvalues : after.values = after'.values := by
    refine Array.ext (h.size.trans h'.size.symm) fun i hi hi' => ?_
    simpa [value?, hi, hi'] using hvalue ⟨i⟩
  rw [h.rest, h'.rest, hvalues]

/-- The order in which the phis are listed plays no part. -/
theorem MovedTo.listing {phis : List Value} (h : frame.MovedTo target after)
    (hphis : phis.Perm (frame.function.block target).phis) :
    (frame.listing target phis).MovedTo target (after.listing target phis) := by
  have hlisted := frame.function.phis_listing target hphis
  have hfunction : after.function = frame.function := by rw [h.rest]
  constructor
  case phis =>
    intro phi hphi
    change phi ∈ ((frame.function.listing target phis).block target).phis at hphi
    rw [hlisted] at hphi
    exact h.phis phi (hphis.mem_iff.1 hphi)
  case others =>
    intro v hv
    change v ∉ ((frame.function.listing target phis).block target).phis at hv
    rw [hlisted] at hv
    exact h.others v fun hmem => hv (hphis.mem_iff.2 hmem)
  case size => exact h.size
  case rest =>
    have hrest := h.rest
    rw [Frame.listing, Frame.listing, hfunction]
    rw [hrest]

end Frame

/-! ## In a run -/

/-- At the end of its block an activation goes on in `target`. -/
inductive Frame.Heads (frame : Frame) (target : Block) : Prop
  | jump (hend : (frame.function.block frame.block).insts[frame.next]? = none)
      (hterm : (frame.function.block frame.block).terminator? = some (.jump target)) : Heads frame target
  | branch {condition thenDest elseDest taken}
      (hend : (frame.function.block frame.block).insts[frame.next]? = none)
      (hterm : (frame.function.block frame.block).terminator? = some (.branch condition thenDest elseDest))
      (htaken : isTaken frame condition = .ok taken)
      (htarget : (if taken then thenDest else elseDest) = target) : Heads frame target

/-- The next round of a run, from a stack and a tally, comes to where `frame` enters `target`, above the
given callers and with the second tally: at the end of its own block, or because what it called with an
`invoke` has ended. A fault passes the callers that wait at a plain call. -/
inductive Enters (p : Program) (fuel : Nat) :
    Stack → Tally → Frame → Block → List Frame → Tally → Prop
  | moved {frame : Frame} {target : Block} {callers : List Frame} {t : Tally} (hfuel : t.steps < fuel)
      (hheads : frame.Heads target) :
      Enters p fuel ⟨frame, callers⟩ t frame target callers { t with steps := t.steps + 1 }
  | resumed {top caller frame : Frame} {passed callers : List Frame} {outcome : Outcome} {target : Block}
      {t t' : Tally} (hstep : step p fuel top t = .ok (.ended outcome, t'))
      (hpassed : ∀ c ∈ passed, (∃ slot, c.waiting = some (.call slot)) ∧ ∃ fault, outcome = .unwinding fault)
      (hresumed : Resumed caller outcome frame target) :
      Enters p fuel ⟨top, passed ++ caller :: callers⟩ t frame target callers t'

section

variable {p : Program} {fuel : Nat} {frame caller : Frame} {target : Block} {passed callers : List Frame}
  {outcome : Outcome} {stack : Stack} {t t' : Tally}

theorem step_of_heads (h : frame.Heads target) (hfuel : t.steps < fuel) :
    step p fuel frame t = (jump fuel frame target { t with steps := t.steps + 1 }).map
      fun r => (.going r.1, r.2) := by
  have hburn : burn fuel t = .ok ((), { t with steps := t.steps + 1 }) := if_pos hfuel
  unfold step
  rw [Exec.bind_ok hburn]
  cases h with
  | jump hend hterm =>
    simp only [hend, hterm, stepTerminator]
    rw [Exec.bind_apply]
    rfl
  | branch hend hterm htaken htarget =>
    simp only [hend, hterm, stepTerminator]
    rw [Exec.bind_apply, Exec.lift_apply, htaken, ← htarget]
    exact Exec.bind_apply _ _ _

theorem Resumed.deliver (h : Resumed caller outcome frame target) :
    deliver fuel caller outcome t = (jump fuel frame target t).map fun r => (.ok r.1, r.2) := by
  unfold Machine.deliver
  cases h with
  | normal hwaiting | landed hwaiting =>
    simp only [hwaiting]
    rw [Exec.bind_apply]
    rfl

theorem settle_resumed
    (hpassed : ∀ c ∈ passed, (∃ slot, c.waiting = some (.call slot)) ∧ ∃ fault, outcome = .unwinding fault)
    (h : Resumed caller outcome frame target) (name : String) :
    settle fuel name outcome (passed ++ caller :: callers) t =
      (jump fuel frame target t).map fun r => (.running ⟨r.1, callers⟩, r.2) := by
  induction passed generalizing name with
  | nil =>
    rw [List.nil_append, settle, Exec.bind_apply, h.deliver]
    cases jump fuel frame target t <;> rfl
  | cons c passed ih =>
    obtain ⟨⟨⟨slot, hwaiting⟩, fault, rfl⟩, hrest⟩ := List.forall_mem_cons.1 hpassed
    have hdeliver : Machine.deliver fuel c (.unwinding fault) t = .ok (.error fault, t) := by
      unfold Machine.deliver
      simp only [hwaiting]
      rfl
    rw [List.cons_append, settle, Exec.bind_ok hdeliver]
    exact ih hrest c.function.name

/-- A round of a run that comes to the beginning of a block does what moving there does. -/
theorem Enters.advance (h : Enters p fuel stack t frame target callers t') :
    advance p fuel stack t =
      (jump fuel frame target t').map fun r => (.running ⟨r.1, callers⟩, r.2) := by
  unfold Machine.advance
  cases h with
  | moved hfuel hheads =>
    rw [Exec.bind_apply, step_of_heads hheads hfuel]
    cases jump fuel frame target { t with steps := t.steps + 1 } <;> rfl
  | resumed hstep hpassed hresumed =>
    rw [Exec.bind_ok hstep]
    exact settle_resumed hpassed hresumed _

/-- What enters a block in a run has its places. -/
theorem Enters.sized (h : Enters p fuel stack t frame target callers t') (hreached : Reaches p fuel stack t) :
    frame.Sized := by
  have hstack := hreached.sized
  cases h with
  | moved => exact hstack _ List.mem_cons_self
  | @resumed _ caller _ _ _ _ _ _ _ _ _ hresumed =>
    have hcaller : caller.Sized := hstack caller (by simp)
    cases hresumed with
    | normal => exact (hcaller.wait _ _).assign _ _
    | landed => exact hcaller.wait _ _

end

/-- Entering a block assigns its phis all at once. If each of them has an operand for the edge, and that
has been assigned, there is one frame to which moving along the edge leads whatever the tally, at one step
for each phi: the phis hold in it what their operands held before, also where these are phis of the block
themselves, and all other values are what they were. In whatever order the block lists its phis, the frame
and the steps are the same. Otherwise the run stops, and no phi has been assigned. -/
theorem phis_assigned_together (p : Program) (frame : Frame) (target : Block) (hsized : frame.Sized) :
    (frame.Ready target → ∃ after, frame.MovedTo target after ∧
      Costs (fun fuel => jump fuel frame target) (frame.function.block target).phis.length [] after ∧
      ∀ phis : List Value, phis.Perm (frame.function.block target).phis →
        Costs (fun fuel => jump fuel (frame.listing target phis) target)
          (frame.function.block target).phis.length [] (after.listing target phis)) ∧
    (¬ frame.Ready target → ∀ fuel t, ∃ e, jump fuel frame target t = .error e ∧
      InPlace.jump fuel target t frame = (.error e, frame) ∧
      ∀ stack callers t₀, Enters p fuel stack t₀ frame target callers t →
        ∀ rounds, runFrom p fuel (rounds + 1) stack t₀ = .error e) := by
  constructor
  · intro hready
    obtain ⟨after, harrived, hmoved⟩ := hready.movedTo hsized
    refine ⟨after, hmoved, harrived.costs, fun phis hphis => ?_⟩
    have hlisted := frame.function.phis_listing target hphis
    have hready' : (frame.listing target phis).Ready target := by
      intro phi hphi
      change phi ∈ ((frame.function.listing target phis).block target).phis at hphi
      rw [hlisted] at hphi
      exact hready phi (hphis.mem_iff.1 hphi)
    have hsized' : (frame.listing target phis).Sized := hsized
    obtain ⟨after', harrived', hmoved'⟩ := hready'.movedTo hsized'
    have hcosts := harrived'.costs
    change Costs _ ((frame.function.listing target phis).block target).phis.length [] after' at hcosts
    rwa [hlisted, hphis.length_eq, hmoved'.unique (hmoved.listing hphis) hready'] at hcosts
  · intro hready fuel t
    cases hjump : jump fuel frame target t with
    | ok result => exact absurd (jump_ends fuel frame target _ _ _ hjump).1.ready hready
    | error e =>
      refine ⟨e, rfl, ?_, fun stack callers t₀ henters rounds => ?_⟩
      · rw [InPlace.jump_eq, hjump]
      · rw [runFrom, henters.advance, hjump]
        rfl

/-- A loop in which two phis exchange their contents. -/
def exchanging : Function where
  name := "exchange"
  params := []
  result := .int
  blocks := #[⟨"entry", [], #[⟨0⟩, ⟨1⟩], some (.jump ⟨1⟩), []⟩,
    ⟨"loop", [⟨2⟩, ⟨3⟩], #[], some (.jump ⟨1⟩), [⟨0⟩, ⟨1⟩]⟩]
  values := #[⟨.int, .intConst 5, ⟨0⟩⟩, ⟨.int, .intConst 8, ⟨0⟩⟩,
    ⟨.int, .phi [(⟨0⟩, ⟨0⟩), (⟨1⟩, ⟨3⟩)], ⟨1⟩⟩, ⟨.int, .phi [(⟨0⟩, ⟨1⟩), (⟨1⟩, ⟨2⟩)], ⟨1⟩⟩]

/-- The activation at the end of the loop, when it has come round once. -/
def exchangingOnce : Frame :=
  ⟨exchanging, ⟨1⟩, 0, #[some (.int 5), some (.int 8), some (.int 5), some (.int 8)], none, none⟩

/-- The activation at the end of the entry, with the second constant missing. -/
def exchangingHalf : Frame :=
  ⟨exchanging, ⟨0⟩, 2, #[some (.int 5), none, none, none], none, none⟩

/-- The phis exchange what they hold, in either order; where one of them has nothing to take, the other is
not assigned either. -/
theorem phis_assigned_together_exchanging :
    (∃ after : Frame, after.value? ⟨2⟩ = some (.int 8) ∧ after.value? ⟨3⟩ = some (.int 5) ∧
      after.value? ⟨0⟩ = some (.int 5) ∧ Costs (fun fuel => jump fuel exchangingOnce ⟨1⟩) 2 [] after ∧
      Costs (fun fuel => jump fuel (exchangingOnce.listing ⟨1⟩ [⟨3⟩, ⟨2⟩]) ⟨1⟩) 2 []
        (after.listing ⟨1⟩ [⟨3⟩, ⟨2⟩])) ∧
    ∃ e, InPlace.jump 10 ⟨1⟩ ⟨0, #[]⟩ exchangingHalf = (.error e, exchangingHalf) := by
  constructor
  · obtain ⟨after, hmoved, hcosts, hlisted⟩ := (phis_assigned_together ⟨[]⟩ exchangingOnce ⟨1⟩ rfl).1
      (by decide)
    exact ⟨after, hmoved.phis ⟨2⟩ (by decide) ⟨3⟩ rfl, hmoved.phis ⟨3⟩ (by decide) ⟨2⟩ rfl,
      hmoved.others ⟨0⟩ (by decide), hcosts, hlisted [⟨3⟩, ⟨2⟩] (.swap _ _ _)⟩
  · obtain ⟨e, -, hplace, -⟩ := (phis_assigned_together ⟨[]⟩ exchangingHalf ⟨1⟩ rfl).2 (by decide) 10
      ⟨0, #[]⟩
    exact ⟨e, hplace⟩

end Abacus.Machine
