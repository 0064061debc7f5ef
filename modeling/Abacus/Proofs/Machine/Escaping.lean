import Abacus.Proofs.Flow.Building
import Abacus.Proofs.Machine.Steps

/-!
# Faults that escape

Which activations end with a fault. A function is careful if it raises only faults of one type, passes
faults on only in blocks that control does not come to, and calls functions that may raise faults with
a handler. In a program of careful functions the only activations that end with a fault are those of
functions that raise faults themselves.

* `Function.Shut`, `Function.Careful` — what can be seen from a function;
* `Frame.Tame` — what its activations keep;
* `Guarded` — what holds of the activations on a stack; `Guarded.advance` — and goes on to hold;
* `Finishes` — an activation ends in the next step;
* `Finishes.mayRaise_of_unwinding` — if it ends with a fault, it is one of a function that raises faults.
-/

namespace Abacus.Flow.Function

/-- Control does not come to the block from an activation in which all faults are of the given type:
the only edge to it leaves where a fault is of another type, or another such block. -/
inductive Shut (f : Function) (typeId : Int64) : Block → Prop
  | refused {c landing other test selector expected pad}
      (start : c ≠ entry) (only : ∀ q, c ∈ f.successors q → q = landing)
      (branches : (f.block landing).terminator? = some (.branch test other c)) (apart : other ≠ c)
      (compares : f.inst test = .intCompare .equal selector expected)
      (selects : f.inst selector = .faultSelector pad) (pads : f.inst pad = .landingPad)
      (expects : f.inst expected = .faultTypeId typeId) : Shut f typeId c
  | behind {c q} (start : c ≠ entry) (only : ∀ q', c ∈ f.successors q' → q' = q) :
      Shut f typeId q → Shut f typeId c

/-- A fault is raised somewhere in the function. -/
def Raises (f : Function) : Prop := ∃ q v, (f.block q).terminator? = some (.raise v)

/-- A function is ready for the faults that the functions it calls may raise. `mayRaise` tells which
functions may. -/
structure Careful (f : Function) (typeId : Int64) (mayRaise : String → Prop) : Prop where
  resumes : ∀ {q v}, (f.block q).terminator? = some (.resume v) → f.Shut typeId q
  raises : ∀ {q v}, (f.block q).terminator? = some (.raise v) →
    mayRaise f.name ∧ ∃ code, f.inst v = .faultAlloc code typeId
  calls : ∀ {q v callee arguments}, v ∈ (f.block q).insts → f.inst v = .call callee arguments →
    callee = f.name ∨ ¬ mayRaise callee

end Abacus.Flow.Function

namespace Abacus.Machine

open Abacus.Flow (Function Value Block Inst)

/-! ## One activation -/

namespace Frame

/-- What the instruction of a value lets it hold, if all faults are of the given type. -/
def Fits (typeId : Int64) (f : Function) (v : Value) (content : Scalar) : Prop :=
  match f.inst v with
  | .faultAlloc code type => content = .fault ⟨code, type⟩
  | .landingPad => ∃ fault : Fault, content = .fault fault ∧ fault.typeId = typeId
  | .faultSelector pad => f.inst pad = .landingPad → content = .int typeId
  | .faultTypeId type => content = .int type
  | .intCompare .equal selector expected => ∀ pad, f.inst selector = .faultSelector pad →
      f.inst pad = .landingPad → f.inst expected = .faultTypeId typeId → content = .bool true
  | _ => True

/-- An activation in which all faults that have landed are of the given type. -/
structure Tame (typeId : Int64) (frame : Frame) : Prop where
  fits : ∀ {v content}, frame.value? v = some content → Fits typeId frame.function v content
  inFlight : ∀ {fault}, frame.inFlight = some fault → fault.typeId = typeId
  outside : ¬ frame.function.Shut typeId frame.block

variable {typeId : Int64} {frame after : Frame} {v u : Value} {content other : Scalar}

/-- What a value holds after an assignment. -/
theorem of_value?_assign (h : (frame.assign v content).value? u = some other) :
    u = v ∧ other = content ∨ frame.value? u = some other := by
  by_cases hu : u.index = v.index
  · obtain rfl : u = v := Flow.Value.ext_index hu
    by_cases hlt : u.index < frame.values.size
    · rw [value?_assign _ _ hlt] at h
      exact .inl ⟨rfl, (Option.some.inj h).symm⟩
    · refine .inr ?_
      unfold value? assign at h
      unfold value?
      rwa [Array.setIfInBounds_eq_of_size_le (Nat.not_lt.1 hlt)] at h
  · rw [value?_assign_of_ne _ _ (Ne.symm hu)] at h
    exact .inr h

/-- A branch that is taken or not has read a value. -/
theorem isTaken_ok {taken : Bool} (h : isTaken frame v = .ok taken) : ∃ content,
    frame.value? v = some content ∧ match content with
      | .bool b => b = taken
      | _ => True := by
  unfold isTaken at h
  cases hread : frame.read v with
  | error e =>
    rw [hread] at h
    cases h
  | ok content =>
    refine ⟨content, read_eq_ok_iff.1 hread, ?_⟩
    rw [hread] at h
    cases content with
    | bool b =>
      cases h
      rfl
    | _ => trivial

namespace Tame

theorem assign (h : Tame typeId frame) (hfits : Fits typeId frame.function v content) :
    Tame typeId (frame.assign v content) where
  fits hu := by
    rcases of_value?_assign hu with ⟨rfl, rfl⟩ | hu
    · exact hfits
    · exact h.fits hu
  inFlight := h.inFlight
  outside := h.outside

theorem skip (h : Tame typeId frame) : Tame typeId frame.skip := ⟨h.fits, h.inFlight, h.outside⟩

theorem wait (h : Tame typeId frame) (waiting : Option Waiting) :
    Tame typeId { frame with waiting := waiting } := ⟨h.fits, h.inFlight, h.outside⟩

/-- An instruction gives what its value may hold. -/
theorem evaluated (h : Tame typeId frame) {v : Value}
    (heval : Evaluated frame (frame.function.inst v) content after) :
    Tame typeId (after.assign v content).skip := by
  have hafter : Tame typeId after := by
    rw [heval.frame_eq]
    refine ⟨h.fits, fun {fault} hfault => ?_, h.outside⟩
    generalize frame.function.inst v = inst at heval
    cases heval with
    | landingPad => cases hfault
    | _ => exact h.inFlight hfault
  refine (hafter.assign ?_).skip
  have hfunction : after.function = frame.function := by rw [heval.frame_eq]
  rw [hfunction]
  unfold Fits
  generalize hinst : frame.function.inst v = inst at heval
  cases heval with
  | intConst | floatConst | intArith | floatArith | floatCompare | boolToInt | intToFloat
  | floatToInt | beginCatch | reportFault | endCatch => trivial
  | faultAlloc => rfl
  | landingPad hfault => exact ⟨_, rfl, h.inFlight hfault⟩
  | faultTypeId => rfl
  | @faultSelector pad fault hpad =>
    intro hlanding
    have hfits := h.fits hpad
    unfold Fits at hfits
    rw [hlanding] at hfits
    obtain ⟨fault', heq, htype⟩ := hfits
    cases heq
    exact congrArg Scalar.int htype
  | @intCompare op selector expected a b ha hb =>
    cases op with
    | equal =>
      intro pad hselector hlanding hexpected
      have hselected := h.fits ha
      have htype := h.fits hb
      unfold Fits at hselected htype
      rw [hselector] at hselected
      rw [hexpected] at htype
      cases hselected hlanding
      cases htype
      simp [Machine.intCompare]
    | less | greater | notEqual => trivial

/-- Control moves along an edge. If it leaves where a value is compared, the value decides. -/
theorem arrived (h : Tame typeId frame) {target : Block} (harrived : frame.Arrived target after)
    (hedge : target ∈ frame.function.successors frame.block)
    (hbranch : ∀ test first second,
      (frame.function.block frame.block).terminator? = some (.branch test first second) →
      ∃ taken, isTaken frame test = .ok taken ∧ target = if taken then first else second) :
    Tame typeId after := by
  obtain ⟨contents, hcontents, rfl⟩ := harrived
  have hassigned : Tame typeId (frame.assignAll contents) := by
    clear hedge hbranch
    generalize (frame.function.block target).phis = phis at hcontents
    -- What the phis take was read before the first of them was assigned.
    suffices hall : ∀ g : Frame, Tame typeId g → g.function = frame.function →
        Tame typeId (g.assignAll contents) from hall frame h rfl
    induction hcontents with
    | nil => exact fun g hg _ => hg
    | @cons phi taken phis contents htaken _ ih =>
      intro g hg hfunction
      obtain ⟨htarget, incoming, edge, hphi, -, -⟩ := htaken
      refine ih (g.assign taken.1 taken.2) (hg.assign ?_) hfunction
      unfold Fits
      rw [htarget, hfunction, hphi]
      trivial
  refine ⟨hassigned.fits, hassigned.inFlight, ?_⟩
  show ¬ (frame.assignAll contents).function.Shut typeId target
  rw [frame.assignAll_function]
  intro hshut
  cases hshut with
  | behind start only hq => exact h.outside (only _ hedge ▸ hq)
  | refused start only branches apart compares selects pads expects =>
    -- Control has left by the branch that compares the type of the fault.
    rw [← only _ hedge] at branches
    obtain ⟨taken, htaken, htarget⟩ := hbranch _ _ _ branches
    obtain ⟨content, hcontent, htaken⟩ := isTaken_ok htaken
    have hfits := h.fits hcontent
    unfold Fits at hfits
    rw [compares] at hfits
    cases hfits _ selects pads expects
    cases htaken
    exact apart htarget.symm

/-- What has been entered is tame: its values are parameters. -/
theorem enter (typeId : Int64) {f : Function} {arguments : List Scalar}
    (h : Frame.enter f arguments = .ok frame) : Tame typeId frame ∧ frame.function = f := by
  unfold Frame.enter at h
  split at h
  · cases h
    refine ⟨⟨fun {v content} hv => ?_, fun {fault} (h : none = some fault) => (nomatch h),
      fun hshut => ?_⟩, rfl⟩
    · -- Only the values of parameters are assigned.
      suffices hparam : ∃ index, f.inst v = .param index by
        obtain ⟨index, hindex⟩ := hparam
        unfold Fits
        rw [hindex]
        trivial
      unfold value? at hv
      dsimp only at hv
      rw [← Array.foldl_toList] at hv
      refine List.foldlRecOn (motive := fun values : Array (Option Scalar) =>
        ∀ content, (values[v.index]?).join = some content → ∃ index, f.inst v = .param index)
        _ _ ?_ ?_ content hv
      · intro content hcontent
        rw [Array.getElem?_replicate] at hcontent
        split at hcontent <;> cases hcontent
      · intro values hvalues u _ content hcontent
        split at hcontent
        · next index hinst =>
          by_cases hu : u.index = v.index
          · exact ⟨index, Flow.Value.ext_index hu ▸ hinst⟩
          · rw [Array.getElem?_setIfInBounds_ne hu] at hcontent
            exact hvalues content hcontent
        · exact hvalues content hcontent
    · change f.Shut typeId Function.entry at hshut
      cases hshut with
      | refused start => exact start rfl
      | behind start => exact start rfl
  · cases h

end Tame

/-- What a suspended activation waits for is a call of its function. -/
def Suspended (frame : Frame) : Prop :=
  match frame.waiting with
  | some (.call slot) => ∃ callee arguments, frame.function.inst slot = .call callee arguments
  | some (.invoke slot normal unwind) =>
    (∃ callee arguments, frame.function.inst slot = .call callee arguments) ∧
      (frame.function.block frame.block).terminator? = some (.invoke slot normal unwind)
  | none => True

end Frame

/-- What a call has come to is given to an activation that waits for it. -/
theorem Delivered.tame {typeId : Int64} {caller after : Frame} {outcome : Outcome}
    (h : Delivered caller outcome (.ok after)) (htame : caller.Tame typeId)
    (hsuspended : caller.Suspended)
    (houtcome : ∀ fault, outcome = .unwinding fault → fault.typeId = typeId) :
    after.Tame typeId ∧ after.function = caller.function := by
  have hslot : ∀ {slot content} {callee : String} {arguments : List Value},
      caller.function.inst slot = .call callee arguments →
      Frame.Fits typeId caller.function slot content := by
    intro slot content callee arguments hinst
    unfold Frame.Fits
    rw [hinst]
    trivial
  have hleft : ∀ {slot normal unwind c}, (caller.function.block caller.block).terminator? =
      some (.invoke slot normal unwind) → c = normal ∨ c = unwind →
      c ∈ caller.function.successors caller.block ∧ ∀ test first second,
        (caller.function.block caller.block).terminator? ≠ some (.branch test first second) := by
    intro slot normal unwind c hterm hc
    refine ⟨?_, by simp [hterm]⟩
    rw [Function.successors_eq hterm]
    simpa [Flow.Terminator.successors] using hc
  cases h with
  | @returned content slot hwaiting =>
    unfold Frame.Suspended at hsuspended
    rw [hwaiting] at hsuspended
    obtain ⟨callee, arguments, hinst⟩ := hsuspended
    exact ⟨((htame.wait none).assign (hslot hinst)).skip, rfl⟩
  | @normal content slot normal unwind after hwaiting harrived =>
    unfold Frame.Suspended at hsuspended
    rw [hwaiting] at hsuspended
    obtain ⟨⟨callee, arguments, hinst⟩, hterm⟩ := hsuspended
    obtain ⟨hedge, hbranch⟩ := hleft hterm (.inl rfl)
    refine ⟨((htame.wait none).assign (hslot hinst)).arrived harrived hedge
      fun test first second h => absurd h (hbranch test first second), ?_⟩
    obtain ⟨contents, -, rfl⟩ := harrived
    exact Frame.assignAll_function ..
  | @landed fault slot normal unwind after hwaiting harrived =>
    unfold Frame.Suspended at hsuspended
    rw [hwaiting] at hsuspended
    obtain ⟨-, hterm⟩ := hsuspended
    obtain ⟨hedge, hbranch⟩ := hleft hterm (.inr rfl)
    have hlanding : ({ caller with waiting := none, inFlight := some fault } : Frame).Tame typeId :=
      ⟨htame.fits, fun {fault'} (h : some fault = some fault') => Option.some.inj h ▸ houtcome fault rfl,
        htame.outside⟩
    refine ⟨hlanding.arrived harrived hedge
      fun test first second h => absurd h (hbranch test first second), ?_⟩
    obtain ⟨contents, -, rfl⟩ := harrived
    exact Frame.assignAll_function ..

/-! ## The stack -/

/-- A plain call is one of the same function, or of one that raises no fault. -/
def Waits (mayRaise : String → Prop) (name : String) : List Frame → Prop
  | [] => True
  | caller :: callers =>
    (∀ slot, caller.waiting = some (.call slot) →
      name = caller.function.name ∨ ¬ mayRaise name) ∧
      Waits mayRaise caller.function.name callers

/-- All activations on a stack are tame and belong to functions of the program. -/
structure Guarded (p : Program) (typeId : Int64) (mayRaise : String → Prop) (stack : Stack) :
    Prop where
  tame : ∀ frame ∈ stack.top :: stack.callers,
    frame.Tame typeId ∧ p.get? frame.function.name = some frame.function
  suspended : ∀ frame ∈ stack.callers, frame.Suspended
  waits : Waits mayRaise stack.top.function.name stack.callers

/-- The stacks that a run of a program goes through, and what has been used and reported by then. -/
inductive Program.Reaches (p : Program) (entry : String) (arguments : List Int64) (fuel : Nat) :
    Stack → Tally → Prop
  | start {f frame} : p.get? entry = some f → Frame.enter f (arguments.map .int) = .ok frame →
      Reaches p entry arguments fuel ⟨frame, []⟩ ⟨0, #[]⟩
  | advance {stack tally stack' tally'} : Reaches p entry arguments fuel stack tally →
      advance p fuel stack tally = .ok (.running stack', tally') →
      Reaches p entry arguments fuel stack' tally'

/-- In the next step an activation on a stack ends: the innermost one, or a caller to which a fault is
given that it does not wait for. -/
inductive Finishes (p : Program) (fuel : Nat) (stack : Stack) (tally : Tally) :
    Nat → Frame → Outcome → Tally → Prop
  | top {outcome tally'} : step p fuel stack.top tally = .ok (.ended outcome, tally') →
      Finishes p fuel stack tally 0 stack.top outcome tally'
  | caller {depth frame outcome tally' caller fault tally''} :
      Finishes p fuel stack tally depth frame outcome tally' →
      stack.callers[depth]? = some caller →
      deliver fuel caller outcome tally' = .ok (.error fault, tally'') →
      Finishes p fuel stack tally (depth + 1) caller (.unwinding fault) tally''

section

variable {p : Program} {typeId : Int64} {mayRaise : String → Prop} {stack stack' : Stack} {fuel : Nat}
  {tally tally' : Tally}
  (hp : ∀ {name f}, p.get? name = some f → f.name = name ∧ f.Careful typeId mayRaise)
include hp

/-- One step of an activation. -/
theorem Stepped.tame {frame : Frame} {progress : Progress} (h : Stepped p frame progress)
    (htame : frame.Tame typeId) (hget : p.get? frame.function.name = some frame.function) :
    match progress with
    | .going after => after.Tame typeId ∧ after.function = frame.function
    | .calling caller f _ => caller.Tame typeId ∧ caller.function = frame.function ∧
        caller.Suspended ∧ p.get? f.name = some f ∧ ∀ slot, caller.waiting = some (.call slot) →
          f.name = caller.function.name ∨ ¬ mayRaise f.name
    | .ended outcome => ∀ fault, outcome = .unwinding fault →
        fault.typeId = typeId ∧ mayRaise frame.function.name := by
  have hcareful := (hp hget).2
  have hfunction : ∀ {target after}, frame.Arrived target after → after.function = frame.function := by
    rintro target after ⟨contents, -, rfl⟩
    exact Frame.assignAll_function ..
  have hedge : ∀ {t c}, (frame.function.block frame.block).terminator? = some t →
      c ∈ t.successors → c ∈ frame.function.successors frame.block := by
    intro t c hterm hc
    rwa [Function.successors_eq hterm]
  cases h with
  | param => exact ⟨htame.skip, rfl⟩
  | @inst v content after hv hinst =>
    refine ⟨htame.evaluated hinst, ?_⟩
    show after.function = frame.function
    rw [hinst.frame_eq]
  | @call v callee arguments f contents hv hinst hf hcontents =>
    obtain ⟨rfl, -⟩ := hp hf
    refine ⟨htame.wait _, rfl, ⟨_, _, hinst⟩, hf, fun _ _ => ?_⟩
    exact hcareful.calls (Array.mem_of_getElem? hv) hinst
  | jump hend hterm hafter =>
    refine ⟨htame.arrived hafter (hedge hterm (by simp [Flow.Terminator.successors]))
      fun test first second hbranch => ?_, hfunction hafter⟩
    rw [hterm] at hbranch
    cases hbranch
  | @branch condition first second taken after hend hterm htaken hafter =>
    refine ⟨htame.arrived hafter (hedge hterm ?_) fun test first' second' hbranch => ?_,
      hfunction hafter⟩
    · cases taken <;> simp [Flow.Terminator.successors]
    · rw [hterm] at hbranch
      cases hbranch
      exact ⟨taken, htaken, rfl⟩
  | ret => exact fun fault h => by cases h
  | @invoke v normal unwind callee arguments f contents hend hterm hinst hf hcontents =>
    obtain ⟨rfl, -⟩ := hp hf
    exact ⟨htame.wait _, rfl, ⟨⟨_, _, hinst⟩, hterm⟩, hf, fun slot h => by cases h⟩
  | @raise v fault hend hterm hv =>
    intro fault' heq
    cases heq
    obtain ⟨hraises, code, hinst⟩ := hcareful.raises hterm
    have hfits := htame.fits hv
    unfold Frame.Fits at hfits
    rw [hinst] at hfits
    cases hfits
    exact ⟨rfl, hraises⟩
  | @resume v fault hend hterm hv =>
    exact absurd (hcareful.resumes hterm) htame.outside

omit hp in
/-- The callers of an activation that has ended are resumed, or end as well. -/
theorem settle_guarded {function name : String} {outcome : Outcome} {callers : List Frame}
    (htame : ∀ frame ∈ callers, frame.Tame typeId ∧ p.get? frame.function.name = some frame.function)
    (hsuspended : ∀ frame ∈ callers, frame.Suspended) (hwaits : Waits mayRaise name callers)
    (houtcome : ∀ fault, outcome = .unwinding fault → fault.typeId = typeId)
    (h : settle fuel function outcome callers tally = .ok (.running stack', tally')) :
    Guarded p typeId mayRaise stack' := by
  induction callers generalizing function name outcome tally with
  | nil =>
    unfold settle finish at h
    split at h <;> cases h
  | cons caller callers ih =>
    unfold settle at h
    obtain ⟨result, mid, hdeliver, h⟩ := Exec.of_bind_ok h
    have hdelivered := (deliver_ends fuel caller outcome _ _ _ hdeliver).1
    obtain ⟨hcaller, hget⟩ := htame caller List.mem_cons_self
    cases result with
    | ok after =>
      cases h
      obtain ⟨hafter, hfunction⟩ :=
        hdelivered.tame hcaller (hsuspended caller List.mem_cons_self) houtcome
      refine ⟨fun frame hframe => ?_, fun frame hframe => hsuspended frame (List.mem_cons_of_mem _ hframe),
        ?_⟩
      · rcases List.mem_cons.1 hframe with rfl | hframe
        · exact ⟨hafter, by rw [hfunction]; exact hget⟩
        · exact htame frame (List.mem_cons_of_mem _ hframe)
      · rw [show after.function = caller.function from hfunction]
        exact hwaits.2
    | error fault =>
      have hfault : outcome = .unwinding fault := by
        cases hdelivered
        rfl
      refine ih (fun frame hframe => htame frame (List.mem_cons_of_mem _ hframe))
        (fun frame hframe => hsuspended frame (List.mem_cons_of_mem _ hframe)) hwaits.2
        (fun fault' heq => ?_) h
      cases heq
      exact houtcome fault hfault

/-- A step keeps the activations guarded. -/
theorem Guarded.advance (h : Guarded p typeId mayRaise stack)
    (hadvance : advance p fuel stack tally = .ok (.running stack', tally')) :
    Guarded p typeId mayRaise stack' := by
  unfold Machine.advance at hadvance
  obtain ⟨progress, mid, hstep, hadvance⟩ := Exec.of_bind_ok hadvance
  obtain ⟨htop, hget⟩ := h.tame stack.top List.mem_cons_self
  have htame := (step_ok hstep).1.tame hp htop hget
  cases progress with
  | going after =>
    cases hadvance
    obtain ⟨hafter, hfunction⟩ := htame
    refine ⟨fun frame hframe => ?_, h.suspended, ?_⟩
    · rcases List.mem_cons.1 hframe with rfl | hframe
      · exact ⟨hafter, by rw [hfunction]; exact hget⟩
      · exact h.tame frame (List.mem_cons_of_mem _ hframe)
    · rw [show after.function = stack.top.function from hfunction]
      exact h.waits
  | calling caller f arguments =>
    obtain ⟨hcaller, hfunction, hsuspended, hf, hwaits⟩ := htame
    obtain ⟨inner, mid', hlift, hrunning⟩ := Exec.of_bind_ok hadvance
    obtain ⟨henter, rfl⟩ := Exec.of_lift_ok hlift
    cases hrunning
    obtain ⟨hinner, rfl⟩ := Frame.Tame.enter typeId henter
    refine ⟨fun frame hframe => ?_, fun frame hframe => ?_, hwaits, ?_⟩
    · rcases List.mem_cons.1 hframe with rfl | hframe
      · exact ⟨hinner, hf⟩
      · rcases List.mem_cons.1 hframe with rfl | hframe
        · exact ⟨hcaller, by rw [hfunction]; exact hget⟩
        · exact h.tame frame (List.mem_cons_of_mem _ hframe)
    · rcases List.mem_cons.1 hframe with rfl | hframe
      · exact hsuspended
      · exact h.suspended frame hframe
    · rw [hfunction]
      exact h.waits
  | ended outcome =>
    exact settle_guarded (fun frame hframe => h.tame frame (List.mem_cons_of_mem _ hframe))
      h.suspended h.waits (fun fault heq => (htame fault heq).1) hadvance

/-- All stacks of a run are guarded. -/
theorem Program.Reaches.guarded {entry : String} {arguments : List Int64}
    (h : p.Reaches entry arguments fuel stack tally) : Guarded p typeId mayRaise stack := by
  induction h with
  | @start f frame hf henter =>
    obtain ⟨rfl, -⟩ := hp hf
    obtain ⟨hframe, rfl⟩ := Frame.Tame.enter typeId henter
    refine ⟨fun g hg => ?_, by simp, trivial⟩
    rw [List.mem_singleton.1 hg]
    exact ⟨hframe, hf⟩
  | advance _ hadvance ih => exact ih.advance hp hadvance

/-- An activation that ends with a fault is one of a function that may raise faults. -/
theorem Finishes.mayRaise_of_unwinding {depth : Nat} {frame : Frame} {outcome : Outcome}
    (h : Finishes p fuel stack tally depth frame outcome tally')
    (hguarded : Guarded p typeId mayRaise stack) {fault : Fault} (houtcome : outcome = .unwinding fault) :
    mayRaise frame.function.name := by
  suffices h : (∀ fault, outcome = .unwinding fault → mayRaise frame.function.name) ∧
      Waits mayRaise frame.function.name (stack.callers.drop depth) from h.1 fault houtcome
  clear houtcome
  induction h with
  | top hstep =>
    obtain ⟨htop, hget⟩ := hguarded.tame stack.top List.mem_cons_self
    exact ⟨fun fault heq => ((step_ok hstep).1.tame hp htop hget fault heq).2, hguarded.waits⟩
  | @caller depth frame outcome tally' caller fault' tally'' _ hcaller hdeliver ih =>
    obtain ⟨hraises, hwaits⟩ := ih
    rw [List.drop_eq_getElem_cons (List.getElem?_eq_some_iff.1 hcaller).1,
      (List.getElem?_eq_some_iff.1 hcaller).2] at hwaits
    refine ⟨fun _ _ => ?_, hwaits.2⟩
    have hdelivered := (deliver_ends fuel caller outcome _ _ _ hdeliver).1
    -- The fault is passed on by a plain call.
    cases hdelivered with
    | passed hwaiting =>
      have hraised := hraises _ rfl
      exact (hwaits.1 _ hwaiting).elim (fun hname => hname ▸ hraised) fun hno => absurd hraised hno

end

end Abacus.Machine
