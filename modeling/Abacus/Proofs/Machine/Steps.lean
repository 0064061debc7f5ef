import Mathlib.Data.List.Forall2
import Mathlib.Data.Option.Basic
import Abacus.Machine.Step

/-!
# What a step does

A part of a run (`Exec`) is looked at from two sides.

* As an equation: how a sequence of parts behaves from a given tally (`bind_apply`, `bind_congr`).
* As a condition: `Exec.Ends x post` says what holds of every result of `x` that is no error. There
  is one lemma for each way in which parts are put together and one for each function of the
  machine, so that a fact about steps is proved without opening them.

Everything a step can lead to is listed in `Stepped`, and everything the delivery of an outcome can
lead to in `Delivered`; `step_ok` and `deliver_ends` say that nothing else happens. An invariant
of frames is proved by cases on these two.
-/

namespace Abacus.Machine

open Abacus.Flow (Function Value Block Inst)

variable {α β : Type}

namespace Exec

/-! ## As an equation -/

theorem bind_apply (x : Exec α) (f : α → Exec β) (t : Tally) :
    (x >>= f) t = (x t).bind fun result => f result.1 result.2 := rfl

theorem lift_apply (y : Except RuntimeError α) (t : Tally) :
    (liftM y : Exec α) t = y.map fun a => (a, t) := by
  cases y <;> rfl

theorem bind_ok {x : Exec α} {f : α → Exec β} {t t' : Tally} {a : α} (h : x t = .ok (a, t')) :
    (x >>= f) t = f a t' := by
  rw [bind_apply, h]
  rfl

theorem bind_error {x : Exec α} {f : α → Exec β} {t : Tally} {e : RuntimeError}
    (h : x t = .error e) : (x >>= f) t = .error e := by
  rw [bind_apply, h]
  rfl

/-- A sequence that ends well has come through its first part. -/
theorem of_bind_ok {x : Exec α} {f : α → Exec β} {t t'' : Tally} {b : β}
    (h : (x >>= f) t = .ok (b, t'')) : ∃ a t', x t = .ok (a, t') ∧ f a t' = .ok (b, t'') := by
  cases hx : x t with
  | error e => rw [bind_error hx] at h; cases h
  | ok result => exact ⟨result.1, result.2, rfl, by rwa [bind_ok hx] at h⟩

theorem of_lift_ok {y : Except RuntimeError α} {t t' : Tally} {a : α}
    (h : (liftM y : Exec α) t = .ok (a, t')) : y = .ok a ∧ t' = t := by
  rw [lift_apply] at h
  cases y with
  | error e => cases h
  | ok b => cases h; exact ⟨rfl, rfl⟩

/-- Two continuations agree after `x` if they agree on its results. -/
theorem bind_congr {x : Exec α} {f g : α → Exec β} {t : Tally}
    (h : ∀ a t', x t = .ok (a, t') → f a t' = g a t') : (x >>= f) t = (x >>= g) t := by
  cases hx : x t with
  | error e => rw [bind_error hx, bind_error hx]
  | ok result => rw [bind_ok hx, bind_ok hx, h _ _ hx]

/-! ## As a condition -/

/-- Every result of `x` meets `post`, and the count of steps has not fallen. -/
def Ends (x : Exec α) (post : α → Prop) : Prop :=
  ∀ t a t', x t = .ok (a, t') → post a ∧ t.steps ≤ t'.steps

variable {x : Exec α} {post : α → Prop}

theorem Ends.mono {post' : α → Prop} (h : Ends x post) (himp : ∀ a, post a → post' a) :
    Ends x post' :=
  fun t a t' hx => ⟨himp a (h t a t' hx).1, (h t a t' hx).2⟩

theorem Ends.pure {a : α} (h : post a) : Ends (pure a) post := by
  intro t b t' hx
  cases hx
  exact ⟨h, Nat.le_refl _⟩

theorem Ends.lift {y : Except RuntimeError α} (h : ∀ a, y = .ok a → post a) :
    Ends (liftM y) post := by
  intro t a t' hx
  obtain ⟨hy, rfl⟩ := of_lift_ok hx
  exact ⟨h a hy, Nat.le_refl _⟩

theorem Ends.throw (e : RuntimeError) : Ends (throw e) post := by
  intro t a t' hx
  cases hx

theorem Ends.bind {mid : α → Prop} {f : α → Exec β} {post : β → Prop} (hx : Ends x mid)
    (hf : ∀ a, mid a → Ends (f a) post) : Ends (x >>= f) post := by
  intro t b t'' h
  obtain ⟨a, t', hxt, hft⟩ := of_bind_ok h
  obtain ⟨hmid, h1⟩ := hx t a t' hxt
  obtain ⟨hpost, h2⟩ := hf a hmid t' b t'' hft
  exact ⟨hpost, Nat.le_trans h1 h2⟩

/-- Parts made one after another for the elements of a list. -/
theorem Ends.mapM {f : α → Exec β} {R : α → β → Prop} (h : ∀ a, Ends (f a) (R a)) :
    ∀ l : List α, Ends (l.mapM f) (List.Forall₂ R l)
  | [] => .pure .nil
  | a :: l => by
    rw [List.mapM_cons]
    refine (h a).bind fun b hb => (Ends.mapM h l).bind fun bs hbs => ?_
    exact .pure (.cons hb hbs)

end Exec

open Exec (Ends)

/-! ## Reading -/

namespace Frame

theorem read_eq_ok_iff {frame : Frame} {v : Value} {content : Scalar} :
    frame.read v = .ok content ↔ frame.value? v = some content := by
  unfold read
  cases frame.value? v <;> simp [malformed]

theorem readInt_eq_ok_iff {frame : Frame} {v : Value} {n : Int64} :
    frame.readInt v = .ok n ↔ frame.value? v = some (.int n) := by
  unfold readInt read
  cases frame.value? v with
  | none => simp [malformed, bind, Except.bind]
  | some content => cases content <;> simp [malformed, bind, Except.bind, pure, Except.pure]

theorem readFloat_eq_ok_iff {frame : Frame} {v : Value} {x : Float} :
    frame.readFloat v = .ok x ↔ frame.value? v = some (.float x) := by
  unfold readFloat read
  cases frame.value? v with
  | none => simp [malformed, bind, Except.bind]
  | some content => cases content <;> simp [malformed, bind, Except.bind, pure, Except.pure]

theorem readFault_eq_ok_iff {frame : Frame} {v : Value} {fault : Fault} :
    frame.readFault v = .ok fault ↔ frame.value? v = some (.fault fault) := by
  unfold readFault read
  cases frame.value? v with
  | none => simp [malformed, bind, Except.bind]
  | some content => cases content <;> simp [malformed, bind, Except.bind, pure, Except.pure]

theorem mapM_read_eq_ok_iff {frame : Frame} {vs : List Value} {contents : List Scalar} :
    vs.mapM frame.read = .ok contents ↔ vs.map frame.value? = contents.map some := by
  induction vs generalizing contents with
  | nil => cases contents <;> simp [pure, Except.pure]
  | cons v vs ih =>
    rw [List.mapM_cons]
    cases hv : frame.read v with
    | error e =>
      have hnone : frame.value? v = none := by
        unfold read at hv
        cases h : frame.value? v with
        | none => rfl
        | some content => rw [h] at hv; cases hv
      cases contents <;> simp [hnone, bind, Except.bind]
    | ok content =>
      have hsome := read_eq_ok_iff.1 hv
      cases hvs : vs.mapM frame.read with
      | error e =>
        have : ∀ contents, vs.map frame.value? ≠ List.map some contents := by
          intro contents h
          rw [ih.2 h] at hvs
          cases hvs
        cases contents <;> simp [hsome, this, bind, Except.bind]
      | ok rest =>
        have := ih.1 hvs
        cases contents with
        | nil => simp [bind, Except.bind, pure, Except.pure]
        | cons c contents =>
          simp only [bind, Except.bind, pure, Except.pure, List.map_cons, hsome, this,
            Except.ok.injEq, List.cons.injEq, Option.some.injEq]
          rw [(List.map_injective_iff.2 (Option.some_injective _)).eq_iff]

/-- A malformed frame gives nothing. -/
theorem malformed_ne_ok {frame : Frame} {detail : Malformation} {a : α} :
    frame.malformed detail ≠ .ok a := nofun

end Frame

/-! ## Fuel and reports -/

theorem burn_ends (fuel : Nat) : Ends (burn fuel) fun _ => True := by
  intro t a t' h
  unfold burn at h
  split at h
  · cases h
    exact ⟨trivial, Nat.le_succ _⟩
  · cases h

/-- What begins with a unit of fuel had it, and has used it at its end. -/
theorem burn_bind {fuel : Nat} {f : Unit → Exec α} {post : α → Prop} (hf : ∀ u, Ends (f u) post)
    {t t' : Tally} {a : α} (h : (burn fuel >>= f) t = .ok (a, t')) :
    post a ∧ t.steps < fuel ∧ t.steps < t'.steps := by
  rw [Exec.bind_apply] at h
  unfold burn at h
  split at h
  · next hlt =>
    obtain ⟨hpost, hle⟩ := hf () _ a t' h
    exact ⟨hpost, hlt, hle⟩
  · cases h

theorem report_ends (function : String) (code : Int64) :
    Ends (report function code) fun _ => True := by
  intro t a t' h
  cases h
  exact ⟨trivial, Nat.le_refl _⟩

/-! ## Moving along an edge -/

namespace Frame

/-- What `phi` takes on the edge from the block of the frame. -/
def Takes (frame : Frame) (phi : Value) (taken : Value × Scalar) : Prop :=
  taken.1 = phi ∧ ∃ incoming edge, frame.function.inst phi = .phi incoming ∧
    incoming.find? (fun operand => operand.1 = frame.block) = some edge ∧
    frame.value? edge.2 = some taken.2

/-- The frame has moved along the edge to `target`, and its phis have taken their values. -/
def Arrived (frame : Frame) (target : Block) (after : Frame) : Prop :=
  ∃ contents, List.Forall₂ frame.Takes (frame.function.block target).phis contents ∧
    after = { frame.assignAll contents with block := target, next := 0 }

@[simp] theorem assign_function (frame : Frame) (v : Value) (content : Scalar) :
    (frame.assign v content).function = frame.function := rfl

@[simp] theorem assign_waiting (frame : Frame) (v : Value) (content : Scalar) :
    (frame.assign v content).waiting = frame.waiting := rfl

@[simp] theorem assign_inFlight (frame : Frame) (v : Value) (content : Scalar) :
    (frame.assign v content).inFlight = frame.inFlight := rfl

@[simp] theorem size_assign (frame : Frame) (v : Value) (content : Scalar) :
    (frame.assign v content).values.size = frame.values.size := by
  simp [assign]

@[simp] theorem skip_function (frame : Frame) : frame.skip.function = frame.function := rfl

@[simp] theorem skip_waiting (frame : Frame) : frame.skip.waiting = frame.waiting := rfl

/-- What holds of a frame holds after assignments that keep it. -/
theorem assignAll_induction {P : Frame → Prop} (h : ∀ frame v content, P frame →
    P (frame.assign v content)) (contents : List (Value × Scalar)) {frame : Frame}
    (hframe : P frame) : P (frame.assignAll contents) := by
  induction contents generalizing frame with
  | nil => exact hframe
  | cons c contents ih => exact ih (h frame c.1 c.2 hframe)

@[simp] theorem assignAll_function (frame : Frame) (contents : List (Value × Scalar)) :
    (frame.assignAll contents).function = frame.function :=
  assignAll_induction (P := fun g => g.function = frame.function) (fun _ _ _ h => h) contents rfl

@[simp] theorem assignAll_waiting (frame : Frame) (contents : List (Value × Scalar)) :
    (frame.assignAll contents).waiting = frame.waiting :=
  assignAll_induction (P := fun g => g.waiting = frame.waiting) (fun _ _ _ h => h) contents rfl

@[simp] theorem assignAll_inFlight (frame : Frame) (contents : List (Value × Scalar)) :
    (frame.assignAll contents).inFlight = frame.inFlight :=
  assignAll_induction (P := fun g => g.inFlight = frame.inFlight) (fun _ _ _ h => h) contents rfl

@[simp] theorem size_assignAll (frame : Frame) (contents : List (Value × Scalar)) :
    (frame.assignAll contents).values.size = frame.values.size :=
  assignAll_induction (P := fun g => g.values.size = frame.values.size)
    (fun g _ _ h => (g.size_assign _ _).trans h) contents rfl

/-- What values hold after each of some values has been assigned what `content` says. -/
theorem value?_assignAll {frame : Frame} {content : Value → Scalar} (vs : List Value)
    (hvs : ∀ v ∈ vs, v.index < frame.values.size) (v : Value) :
    (frame.assignAll (vs.map fun v => (v, content v))).value? v =
      if v ∈ vs then some (content v) else frame.value? v := by
  induction vs generalizing frame with
  | nil => rfl
  | cons u vs ih =>
    have hrest : ∀ w ∈ vs, w.index < (frame.assign u (content u)).values.size := fun w hw => by
      rw [size_assign]
      exact hvs w (List.mem_cons_of_mem _ hw)
    show ((frame.assign u (content u)).assignAll _).value? v = _
    rw [ih hrest]
    by_cases hv : v ∈ vs
    · rw [if_pos hv, if_pos (List.mem_cons_of_mem _ hv)]
    · rw [if_neg hv]
      by_cases hu : v = u
      · rw [hu, value?_assign _ _ (hvs u List.mem_cons_self), if_pos List.mem_cons_self]
      · rw [if_neg (by simp [hu, hv]), value?_assign_of_ne]
        intro hindex
        cases u
        cases v
        exact hu (congrArg Value.mk hindex.symm)

theorem Arrived.function_eq {frame after : Frame} {target : Block}
    (h : frame.Arrived target after) : after.function = frame.function := by
  obtain ⟨contents, -, rfl⟩ := h
  exact frame.assignAll_function contents

theorem Arrived.waiting_eq {frame after : Frame} {target : Block}
    (h : frame.Arrived target after) : after.waiting = frame.waiting := by
  obtain ⟨contents, -, rfl⟩ := h
  exact frame.assignAll_waiting contents

end Frame

theorem incomingValue_ends (fuel : Nat) (frame : Frame) (target : Block) (phi : Value) :
    Ends (incomingValue fuel frame frame.block target phi) (frame.Takes phi) := by
  refine (burn_ends fuel).bind fun _ _ => ?_
  split
  · next incoming hinst =>
    split
    · next edge v hfind =>
      refine (Ends.lift fun a ha => Frame.read_eq_ok_iff.1 ha).bind fun content hcontent => ?_
      exact .pure ⟨rfl, incoming, _, hinst, hfind, hcontent⟩
    · exact .lift fun _ h => absurd h Frame.malformed_ne_ok
  · exact .lift fun _ h => absurd h Frame.malformed_ne_ok

theorem jump_ends (fuel : Nat) (frame : Frame) (target : Block) :
    Ends (jump fuel frame target) (frame.Arrived target) :=
  (Ends.mapM (incomingValue_ends fuel frame target) _).bind fun contents h =>
    .pure ⟨contents, h, rfl⟩

/-! ## Instructions -/

/-- What an instruction that is no call gives, from the values that the frame holds. -/
inductive Evaluated (frame : Frame) : Inst → Scalar → Frame → Prop
  | intConst (n : Int64) : Evaluated frame (.intConst n) (.int n) frame
  | floatConst (x : Float) : Evaluated frame (.floatConst x) (.float x) frame
  | intArith {op lhs rhs a b} (ha : frame.value? lhs = some (.int a))
      (hb : frame.value? rhs = some (.int b)) (hdiv : op = .div → b ≠ 0) :
      Evaluated frame (.intArith op lhs rhs) (.int (intArith op a b)) frame
  | floatArith {op lhs rhs a b} (ha : frame.value? lhs = some (.float a))
      (hb : frame.value? rhs = some (.float b)) :
      Evaluated frame (.floatArith op lhs rhs) (.float (floatArith op a b)) frame
  | intCompare {op lhs rhs a b} (ha : frame.value? lhs = some (.int a))
      (hb : frame.value? rhs = some (.int b)) :
      Evaluated frame (.intCompare op lhs rhs) (.bool (intCompare op a b)) frame
  | floatCompare {op lhs rhs a b} (ha : frame.value? lhs = some (.float a))
      (hb : frame.value? rhs = some (.float b)) :
      Evaluated frame (.floatCompare op lhs rhs) (.bool (floatCompare op a b)) frame
  | boolToInt {v b} (hv : frame.value? v = some (.bool b)) :
      Evaluated frame (.boolToInt v) (.int (if b then 1 else 0)) frame
  | intToFloat {v n} (hv : frame.value? v = some (.int n)) :
      Evaluated frame (.intToFloat v) (.float n.toFloat) frame
  | floatToInt {v x} (hv : frame.value? v = some (.float x)) :
      Evaluated frame (.floatToInt v) (.int x.toInt64) frame
  | faultAlloc (code typeId : Int64) :
      Evaluated frame (.faultAlloc code typeId) (.fault ⟨code, typeId⟩) frame
  | landingPad {fault} (h : frame.inFlight = some fault) :
      Evaluated frame .landingPad (.fault fault) { frame with inFlight := none }
  | faultSelector {v fault} (hv : frame.value? v = some (.fault fault)) :
      Evaluated frame (.faultSelector v) (.int fault.typeId) frame
  | faultTypeId (typeId : Int64) : Evaluated frame (.faultTypeId typeId) (.int typeId) frame
  | beginCatch {v fault} (hv : frame.value? v = some (.fault fault)) :
      Evaluated frame (.beginCatch v) (.int fault.code) frame
  | reportFault {v code} (hv : frame.value? v = some (.int code)) :
      Evaluated frame (.reportFault v) .unit frame
  | endCatch : Evaluated frame .endCatch .unit frame

/-- An instruction changes nothing of a frame but the fault in flight. -/
theorem Evaluated.frame_eq {frame after : Frame} {inst : Inst} {content : Scalar}
    (h : Evaluated frame inst content after) :
    after = { frame with inFlight := after.inFlight } := by
  cases h <;> rfl

theorem readInt_ends (frame : Frame) (v : Value) :
    Ends (liftM (frame.readInt v)) fun n => frame.value? v = some (.int n) :=
  .lift fun _ h => Frame.readInt_eq_ok_iff.1 h

theorem readFloat_ends (frame : Frame) (v : Value) :
    Ends (liftM (frame.readFloat v)) fun x => frame.value? v = some (.float x) :=
  .lift fun _ h => Frame.readFloat_eq_ok_iff.1 h

theorem readFault_ends (frame : Frame) (v : Value) :
    Ends (liftM (frame.readFault v)) fun fault => frame.value? v = some (.fault fault) :=
  .lift fun _ h => Frame.readFault_eq_ok_iff.1 h

theorem read_ends (frame : Frame) (v : Value) :
    Ends (liftM (frame.read v)) fun content => frame.value? v = some content :=
  .lift fun _ h => Frame.read_eq_ok_iff.1 h

theorem malformed_ends (frame : Frame) (detail : Malformation) {post : α → Prop} :
    Ends (liftM (frame.malformed detail)) post :=
  .lift fun _ h => absurd h Frame.malformed_ne_ok

theorem evaluate_ends (frame : Frame) (inst : Inst) :
    Ends (evaluate frame inst) fun result => Evaluated frame inst result.1 result.2 := by
  cases inst with
  | intConst n => exact .pure (.intConst n)
  | floatConst x => exact .pure (.floatConst x)
  | param index => exact malformed_ends frame _
  | intArith op lhs rhs =>
    refine (readInt_ends frame lhs).bind fun a ha => (readInt_ends frame rhs).bind fun b hb => ?_
    by_cases hzero : (op = .div && b == 0) = true
    · simp only [hzero, if_true]
      exact (Ends.throw _).bind fun _ (h : False) => h.elim
    · simp only [hzero]
      refine .pure (.intArith ha hb ?_)
      rintro rfl rfl
      simp at hzero
  | floatArith op lhs rhs =>
    exact (readFloat_ends frame lhs).bind fun a ha => (readFloat_ends frame rhs).bind fun b hb =>
      .pure (.floatArith ha hb)
  | intCompare op lhs rhs =>
    exact (readInt_ends frame lhs).bind fun a ha => (readInt_ends frame rhs).bind fun b hb =>
      .pure (.intCompare ha hb)
  | floatCompare op lhs rhs =>
    exact (readFloat_ends frame lhs).bind fun a ha => (readFloat_ends frame rhs).bind fun b hb =>
      .pure (.floatCompare ha hb)
  | boolToInt v =>
    refine (read_ends frame v).bind fun content hv => ?_
    split
    · exact .pure (.boolToInt hv)
    · exact malformed_ends frame _
  | intToFloat v => exact (readInt_ends frame v).bind fun n hn => .pure (.intToFloat hn)
  | floatToInt v => exact (readFloat_ends frame v).bind fun x hx => .pure (.floatToInt hx)
  | phi incoming => exact malformed_ends frame _
  | call callee arguments => exact malformed_ends frame _
  | faultAlloc code typeId => exact .pure (.faultAlloc code typeId)
  | landingPad =>
    cases h : frame.inFlight with
    | some fault =>
      simp only [evaluate, h]
      exact .pure (.landingPad h)
    | none =>
      simp only [evaluate, h]
      exact malformed_ends frame _
  | faultSelector v => exact (readFault_ends frame v).bind fun n hn => .pure (.faultSelector hn)
  | faultTypeId typeId => exact .pure (.faultTypeId typeId)
  | beginCatch v => exact (readFault_ends frame v).bind fun n hn => .pure (.beginCatch hn)
  | reportFault v =>
    exact (readInt_ends frame v).bind fun n hn => (report_ends _ n).bind fun _ _ =>
      .pure (.reportFault hn)
  | endCatch => exact .pure .endCatch
  | callUnexpected v => exact .throw _

/-! ## One step -/

/-- What one step of a frame can lead to. -/
inductive Stepped (p : Program) (frame : Frame) : Progress → Prop
  /-- A parameter of the entry is passed over. -/
  | param {v index content} (hv : (frame.function.block frame.block).insts[frame.next]? = some v)
      (hinst : frame.function.inst v = .param index) (hentry : frame.block = Function.entry)
      (hcontent : frame.value? v = some content) : Stepped p frame (.going frame.skip)
  /-- An instruction gives its value. -/
  | inst {v content after} (hv : (frame.function.block frame.block).insts[frame.next]? = some v)
      (hinst : Evaluated frame (frame.function.inst v) content after) :
      Stepped p frame (.going (after.assign v content).skip)
  /-- A call that stands among the instructions. -/
  | call {v callee arguments f contents}
      (hv : (frame.function.block frame.block).insts[frame.next]? = some v)
      (hinst : frame.function.inst v = .call callee arguments) (hf : p.get? callee = some f)
      (hcontents : arguments.map frame.value? = contents.map some) :
      Stepped p frame (.calling { frame with waiting := some (.call v) } f contents)
  | jump {target after} (hend : (frame.function.block frame.block).insts[frame.next]? = none)
      (hterm : (frame.function.block frame.block).terminator? = some (.jump target))
      (hafter : frame.Arrived target after) : Stepped p frame (.going after)
  | branch {condition thenDest elseDest taken after}
      (hend : (frame.function.block frame.block).insts[frame.next]? = none)
      (hterm : (frame.function.block frame.block).terminator?
        = some (.branch condition thenDest elseDest))
      (htaken : isTaken frame condition = .ok taken)
      (hafter : frame.Arrived (if taken then thenDest else elseDest) after) :
      Stepped p frame (.going after)
  | ret {v content} (hend : (frame.function.block frame.block).insts[frame.next]? = none)
      (hterm : (frame.function.block frame.block).terminator? = some (.ret v))
      (hcontent : frame.value? v = some content) : Stepped p frame (.ended (.returned content))
  /-- The call of an `invoke`. -/
  | invoke {v normal unwind callee arguments f contents}
      (hend : (frame.function.block frame.block).insts[frame.next]? = none)
      (hterm : (frame.function.block frame.block).terminator? = some (.invoke v normal unwind))
      (hinst : frame.function.inst v = .call callee arguments) (hf : p.get? callee = some f)
      (hcontents : arguments.map frame.value? = contents.map some) :
      Stepped p frame
        (.calling { frame with waiting := some (.invoke v normal unwind) } f contents)
  | raise {v fault} (hend : (frame.function.block frame.block).insts[frame.next]? = none)
      (hterm : (frame.function.block frame.block).terminator? = some (.raise v))
      (hfault : frame.value? v = some (.fault fault)) :
      Stepped p frame (.ended (.unwinding fault))
  | resume {v fault} (hend : (frame.function.block frame.block).insts[frame.next]? = none)
      (hterm : (frame.function.block frame.block).terminator? = some (.resume v))
      (hfault : frame.value? v = some (.fault fault)) :
      Stepped p frame (.ended (.unwinding fault))

/-- A call looks its function up and reads its arguments. -/
theorem callFrom_ends (p : Program) (frame : Frame) (callee : String) (arguments : List Value)
    (waiting : Waiting) :
    Ends (liftM (callFrom p frame callee arguments waiting)) fun progress =>
      ∃ f contents, p.get? callee = some f ∧ arguments.map frame.value? = contents.map some ∧
        progress = .calling { frame with waiting := some waiting } f contents := by
  refine .lift fun progress h => ?_
  unfold callFrom at h
  cases hf : p.get? callee with
  | none => rw [hf] at h; cases h
  | some f =>
    rw [hf] at h
    cases hcontents : arguments.mapM frame.read with
    | error e => simp only [hcontents] at h; cases h
    | ok contents =>
      simp only [hcontents] at h
      cases h
      exact ⟨f, contents, rfl, Frame.mapM_read_eq_ok_iff.1 hcontents, rfl⟩

theorem raiseFrom_ends (frame : Frame) (v : Value) :
    Ends (liftM (raiseFrom frame v)) fun progress =>
      ∃ fault, frame.value? v = some (.fault fault) ∧ progress = .ended (.unwinding fault) := by
  refine .lift fun progress h => ?_
  unfold raiseFrom at h
  cases hv : frame.read v with
  | error e => simp only [hv] at h; cases h
  | ok content =>
    simp only [hv] at h
    cases content <;> cases h
    exact ⟨_, Frame.read_eq_ok_iff.1 hv, rfl⟩

theorem stepInst_ends (p : Program) (frame : Frame) {v : Value}
    (hv : (frame.function.block frame.block).insts[frame.next]? = some v) :
    Ends (stepInst p frame v) (Stepped p frame) := by
  unfold stepInst
  dsimp only
  split
  · next callee arguments hinst =>
    refine (callFrom_ends p frame callee arguments _).mono ?_
    rintro _ ⟨f, contents, hf, hcontents, rfl⟩
    exact .call hv hinst hf hcontents
  · by_cases hbound : isBoundParam frame v (frame.function.inst v) = true
    · simp only [hbound, if_true]
      cases hinst : frame.function.inst v <;> rw [hinst] at hbound <;>
        simp only [isBoundParam, Bool.false_eq_true, Bool.and_eq_true, decide_eq_true_eq] at hbound
      obtain ⟨content, hcontent⟩ := Option.isSome_iff_exists.1 hbound.2
      exact .pure (.param hv hinst hbound.1 hcontent)
    · simp only [hbound]
      exact (evaluate_ends frame _).bind fun result hresult => .pure (.inst hv hresult)

theorem stepTerminator_ends (p : Program) (fuel : Nat) (frame : Frame)
    {terminator : Flow.Terminator}
    (hend : (frame.function.block frame.block).insts[frame.next]? = none)
    (hterm : (frame.function.block frame.block).terminator? = some terminator) :
    Ends (stepTerminator p fuel frame terminator) (Stepped p frame) := by
  cases terminator with
  | jump target =>
    exact (jump_ends fuel frame target).bind fun after h => .pure (.jump hend hterm h)
  | branch condition thenDest elseDest =>
    exact (Ends.lift fun _ h => h).bind fun taken htaken =>
      (jump_ends fuel frame _).bind fun after h => .pure (.branch hend hterm htaken h)
  | ret v => exact (read_ends frame v).bind fun content h => .pure (.ret hend hterm h)
  | invoke v normal unwind =>
    simp only [stepTerminator]
    split
    · next callee arguments hinst =>
      refine (callFrom_ends p frame callee arguments _).mono ?_
      rintro _ ⟨f, contents, hf, hcontents, rfl⟩
      exact .invoke hend hterm hinst hf hcontents
    · exact malformed_ends frame _
  | raise v =>
    refine (raiseFrom_ends frame v).mono ?_
    rintro _ ⟨fault, hfault, rfl⟩
    exact .raise hend hterm hfault
  | resume v =>
    refine (raiseFrom_ends frame v).mono ?_
    rintro _ ⟨fault, hfault, rfl⟩
    exact .resume hend hterm hfault
  | unreachable => exact .throw _

/-- A step leads to what `Stepped` lists and to nothing else, and it uses fuel. -/
theorem step_ok {p : Program} {fuel : Nat} {frame : Frame} {t t' : Tally} {progress : Progress}
    (h : step p fuel frame t = .ok (progress, t')) :
    Stepped p frame progress ∧ t.steps < fuel ∧ t.steps < t'.steps := by
  refine burn_bind (fun _ => ?_) h
  dsimp only
  split
  · next v hv => exact stepInst_ends p frame hv
  · next hend =>
    split
    · next terminator hterm => exact stepTerminator_ends p fuel frame hend hterm
    · exact malformed_ends frame _

/-! ## Returning to callers -/

/-- What the delivery of an outcome can lead to: the caller goes on, or the fault passes it. -/
inductive Delivered (caller : Frame) : Outcome → Except Fault Frame → Prop
  | returned {content slot} (hwaiting : caller.waiting = some (.call slot)) :
      Delivered caller (.returned content)
        (.ok (({ caller with waiting := none } : Frame).assign slot content).skip)
  | normal {content slot normal unwind after}
      (hwaiting : caller.waiting = some (.invoke slot normal unwind))
      (hafter : (({ caller with waiting := none } : Frame).assign slot content).Arrived normal
        after) :
      Delivered caller (.returned content) (.ok after)
  | landed {fault slot normal unwind after}
      (hwaiting : caller.waiting = some (.invoke slot normal unwind))
      (hafter : ({ caller with waiting := none, inFlight := some fault } : Frame).Arrived unwind
        after) :
      Delivered caller (.unwinding fault) (.ok after)
  | passed {fault slot} (hwaiting : caller.waiting = some (.call slot)) :
      Delivered caller (.unwinding fault) (.error fault)

/-- An outcome is delivered as `Delivered` lists, and not in another way. -/
theorem deliver_ends (fuel : Nat) (caller : Frame) (outcome : Outcome) :
    Ends (deliver fuel caller outcome) (Delivered caller outcome) := by
  unfold deliver
  dsimp only
  split
  · next content slot h => exact .pure (.returned h)
  · next content slot normal unwind h =>
    exact (jump_ends fuel _ normal).bind fun after hafter => .pure (.normal h hafter)
  · next fault slot normal unwind h =>
    exact (jump_ends fuel _ unwind).bind fun after hafter => .pure (.landed h hafter)
  · next fault slot h => exact .pure (.passed h)
  · exact malformed_ends caller _

end Abacus.Machine
