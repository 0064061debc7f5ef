import Abacus.Proofs.Lowering.Finished
import Abacus.Proofs.Machine.Costs

/-!
# How control goes through a finished function

An activation of a function that has been lowered goes through the events of its recording: it
executes the instructions among them, and passes reads and writes of variables without a step. A
`Course` says where an activation is in these terms, and that everything defined on the way is there
and has its type.

* `Plan.Reached` — the activation is behind some events of a block;
* `Plan.Course` — it has come there through some blocks, with its values and variables in order;
* `Course.execute`, `Course.write`, `Course.read`, `Course.edge` — the ways in which a course goes on.
-/

namespace Abacus.Machine

open Abacus.Flow (Ty)

/-- The type of what a value holds. -/
def Scalar.ty : Scalar → Ty
  | int _ => .int
  | float _ => .float
  | bool _ => .bool
  | fault _ => .fault
  | unit => .unit

end Abacus.Machine

namespace Abacus.Lowering

open Abacus.Flow (Value Block Ty Inst Terminator Builder)
open Abacus.Machine

namespace Plan

/-- The plan of a function that has been lowered, whatever its source text. -/
structure Whole (ω : Plan) : Prop where
  sound : ω.Sound
  complete : ω.record.Complete
  neat : Neat ω ω

theorem Made.whole {config : FaultConfig} {symbols symbols' : SymbolTable} {routine : Routine}
    {b : Bool} {ω : Plan} (h : Made config symbols routine b symbols' ω)
    (hglobal : symbols.Global) : ω.Whole :=
  ⟨h.closed.1, h.complete hglobal, h.neat hglobal⟩

variable {ω : Plan} {p : List Block} {b c : Block} {done : List Event} {frame : Frame}
  {v : Value} {x : SymbolId}

/-! ## Places -/

/-- An activation of the function is behind some events of a block. -/
structure Reached (ω : Plan) (b : Block) (done : List Event) (frame : Frame) : Prop where
  function : frame.function = ω.builder.function
  waiting : frame.waiting = none
  size : frame.values.size = ω.builder.valueCount
  block : frame.block = b
  next : frame.next = (instsOf done).length

namespace Reached

variable {after : Frame} {inst : Inst} {ty : Ty} {content : Scalar} {program : Program}

/-- The instruction that comes next. -/
theorem insts (h : ω.Reached b done frame) (hplaces : ω.Places b done v inst ty) :
    (frame.function.block frame.block).insts[frame.next]? = some v ∧
      frame.function.inst v = inst := by
  rw [h.function, h.block, h.next]
  exact ⟨hplaces.insts, congrArg Flow.ValueInfo.inst hplaces.info⟩

/-- The end of the block comes next. -/
theorem ends (h : ω.Reached b done frame) (hω : ω.Sound) {t : Terminator}
    (hends : ω.Ends b done t) (hcall : ∀ call normal unwind, t ≠ .invoke call normal unwind) :
    (frame.function.block frame.block).insts[frame.next]? = none ∧
      (frame.function.block frame.block).terminator? = some t := by
  rw [h.function, h.block, h.next]
  refine ⟨?_, hends.terminator⟩
  have hinsts := hω.insts b
  have hnone : endCall? (ω.terminator? b) = none := by
    rw [hends.terminator]
    cases t with
    | invoke call normal unwind => exact absurd rfl (hcall call normal unwind)
    | _ => rfl
  rw [hends.script, hnone, Option.toList_none, List.append_nil] at hinsts
  rw [Array.getElem?_eq_none_iff, show instsOf done = _ from hinsts]
  exact Nat.le_of_eq Array.length_toList.symm

/-- The call at the end of the block comes next. -/
theorem ends_invoke (h : ω.Reached b done frame) (hω : ω.Sound) {normal unwind : Block}
    (hends : ω.Ends b (done ++ [.inst v]) (.invoke v normal unwind)) :
    (frame.function.block frame.block).insts[frame.next]? = none ∧
      (frame.function.block frame.block).terminator? = some (.invoke v normal unwind) := by
  rw [h.function, h.block, h.next]
  refine ⟨?_, hends.terminator⟩
  have hinsts := hω.insts b
  rw [hends.script, hends.terminator, List.filterMap_append] at hinsts
  have hlength := congrArg List.length hinsts
  simp only [List.length_append, List.filterMap_cons, Event.inst?, List.filterMap_nil,
    List.length_cons, List.length_nil, endCall?, Option.toList_some, Array.length_toList] at hlength
  rw [Array.getElem?_eq_none_iff]
  exact Nat.le_of_eq (Nat.succ.inj hlength).symm

/-- An instruction that is no call is executed. -/
theorem leads_inst (h : ω.Reached b done frame) (hplaces : ω.Places b done v inst ty)
    (heval : Evaluated frame inst content after) :
    ∃ n, 0 < n ∧ Leads program frame n (reportsOf frame inst) (after.assign v content).skip := by
  obtain ⟨hinst, hv⟩ := h.insts hplaces
  have hreports : frame.reports = reportsOf frame inst := by
    simp only [Frame.reports, hinst, hv]
  exact hreports ▸ leads_of_step h.waiting (.inst hinst (hv.symm ▸ heval))

/-- A value is assigned and the next instruction is gone to. -/
theorem assign (h : ω.Reached b done frame) (content : Scalar) :
    ω.Reached b (done ++ [.inst v]) (frame.assign v content).skip where
  function := h.function
  waiting := h.waiting
  size := (Frame.size_assign _ _ content).trans h.size
  block := h.block
  next := by
    show frame.next + 1 = _
    simp [h.next, Event.inst?]

/-- What values hold after that. -/
theorem value?_assign (h : ω.Reached b done frame) (content : Scalar)
    (hv : v.index < ω.builder.valueCount) (u : Value) :
    (frame.assign v content).skip.value? u = if u = v then some content else frame.value? u := by
  show (frame.assign v content).value? u = _
  by_cases hu : u = v
  · rw [if_pos hu, hu, Frame.value?_assign _ _ (h.size ▸ hv)]
  · rw [if_neg hu, Frame.value?_assign_of_ne _ _ fun he => hu (Flow.Value.ext_index he).symm]

/-- A fault arrives. -/
theorem inFlight (h : ω.Reached b done frame) (fault? : Option Fault) :
    ω.Reached b done { frame with inFlight := fault? } :=
  ⟨h.function, h.waiting, h.size, h.block, h.next⟩

/-- The activation is behind the instruction that is executed, and its value holds the result. -/
theorem execute (program : Program) {mid : Frame} (h : ω.Reached b done frame)
    (hplaces : ω.Places b done v inst ty) (heval : Evaluated frame inst content mid) : ∃ after,
      (∃ n, 0 < n ∧ Leads program frame n (reportsOf frame inst) after) ∧
      ω.Reached b (done ++ [.inst v]) after ∧
      ∀ u, after.value? u = if u = v then some content else frame.value? u := by
  have hmid : ω.Reached b done mid := heval.frame_eq ▸ h.inFlight mid.inFlight
  refine ⟨_, h.leads_inst hplaces heval, hmid.assign content, fun u => ?_⟩
  rw [hmid.value?_assign content hplaces.lt, heval.frame_eq]
  rfl

/-- Control goes to a block that can be come to from one block only, and has no phis. -/
theorem arrived (h : ω.Reached b done frame) (hω : ω.Sound) (hone : ω.OneWay c b) :
    frame.Arrived c { frame with block := c, next := 0 } ∧
      ω.Reached c [] { frame with block := c, next := 0 } := by
  refine ⟨⟨[], ?_, rfl⟩, h.function, h.waiting, h.size, rfl, rfl⟩
  have hphis : (frame.function.block c).phis = [] := h.function ▸ hone.phis hω
  rw [hphis]
  exact .nil

/-- The end of a block makes no reports. -/
theorem reports_ends (h : ω.Reached b done frame) (hω : ω.Sound) {t : Terminator}
    (hends : ω.Ends b done t) (hcall : ∀ call normal unwind, t ≠ .invoke call normal unwind) :
    frame.reports = [] := by
  unfold Frame.reports
  rw [(h.ends hω hends hcall).1]

/-- A value is given back. -/
theorem ret (h : ω.Reached b done frame) (hω : ω.Sound) (hends : ω.Ends b done (.ret v))
    {content : Scalar} (hv : frame.value? v = some content) :
    ∃ n, Closes program frame n [] (.returned content) := by
  obtain ⟨hnone, hterm⟩ := h.ends hω hends (by simp)
  have hreports := h.reports_ends hω hends (by simp)
  exact hreports ▸ closes_of_step h.waiting (.ret hnone hterm hv)

/-- A fault is raised. -/
theorem raise (h : ω.Reached b done frame) (hω : ω.Sound) (hends : ω.Ends b done (.raise v))
    {fault : Fault} (hv : frame.value? v = some (.fault fault)) :
    ∃ n, Closes program frame n [] (.unwinding fault) := by
  obtain ⟨hnone, hterm⟩ := h.ends hω hends (by simp)
  have hreports := h.reports_ends hω hends (by simp)
  exact hreports ▸ closes_of_step h.waiting (.raise hnone hterm hv)

/-- A truth value sends control to a block that can be come to from one block only. -/
theorem branch (h : ω.Reached b done frame) (hω : ω.Sound) {test : Value} {first second : Block}
    (hends : ω.Ends b done (.branch test first second)) {taken : Bool}
    (htest : frame.value? test = some (.bool taken))
    (hone : ω.OneWay (if taken then first else second) b) :
    (∃ n, 0 < n ∧ Leads program frame n []
      { frame with block := if taken then first else second, next := 0 }) ∧
      ω.Reached (if taken then first else second) []
        { frame with block := if taken then first else second, next := 0 } := by
  obtain ⟨harrived, hreached⟩ := h.arrived hω hone
  obtain ⟨hnone, hterm⟩ := h.ends hω hends (by simp)
  have htaken : isTaken frame test = .ok taken := by
    unfold isTaken
    rw [Frame.read_eq_ok_iff.2 htest]
    rfl
  have hstep : Stepped program frame (.going _) := .branch hnone hterm htaken harrived
  exact ⟨h.reports_ends hω hends (by simp) ▸ leads_of_step h.waiting hstep, hreached⟩

end Reached

/-! ## Courses -/

/-- The value holds something of its type. -/
def Holds (ω : Plan) (frame : Frame) (v : Value) : Prop :=
  ∃ content, frame.value? v = some content ∧ content.ty = ω.builder.ty v

/-- An activation has come through the blocks `p`, and is behind the events `done` of `b`. What is
defined on the way holds something of its type; `latest` is what the variables were given last. -/
structure Course (ω : Plan) (p : List Block) (b : Block) (done : List Event) (frame : Frame)
    (latest : SymbolId → Option (Option Scalar)) : Prop where
  reached : ω.Reached b done frame
  passes : ω.record.Passes p b done ⟨frame.value?, latest⟩
  passed : ∀ a ∈ p, ∀ v, ω.Listed a v → ω.Holds frame v
  here : ∀ v, .inst v ∈ done ∨ v ∈ (ω.builder.info b).phis → ω.Holds frame v
  typed : ∀ {x content}, latest x = some content →
    ∃ scalar, content = some scalar ∧ ω.known.type? x = some scalar.ty

namespace Course

variable {latest : SymbolId → Option (Option Scalar)} {later : List Event}

/-- What can be used is there. -/
theorem holds (h : ω.Course p b done frame latest) (hω : ω.Sound) (hv : ω.Usable b done v) :
    ω.Holds frame v := by
  obtain ⟨-, ⟨hspine, hlisted⟩, hhere⟩ := hv
  by_cases hb : (ω.builder.valueInfo v).block = b
  · exact h.here v (hhere hb)
  · have hmem := hω.dominates hspine p h.passes.path
    exact h.passed _ ((List.mem_append.1 hmem).resolve_right (by simpa using hb)) v hlisted

/-- The values that an event needs are there. -/
theorem holds_operand (h : ω.Course p b done frame latest) (hω : ω.Sound) {e : Event}
    (hscript : ω.record.script b = done ++ e :: later) (hv : v ∈ ω.operands e) :
    ω.Holds frame v := h.holds hω (hω.uses hscript v hv)

/-- The values hold what they held, but for one that has been assigned. -/
theorem assigned {after : Frame} {content : Scalar} (h : ω.Course p b done frame latest)
    (hscript : done ++ [.inst v] <+: ω.record.script b)
    (hreached : ω.Reached b (done ++ [.inst v]) after) (hty : content.ty = ω.builder.ty v)
    (hvalue : ∀ u, after.value? u = if u = v then some content else frame.value? u) :
    ω.Course p b (done ++ [.inst v]) after latest := by
  have hkeeps : ∀ {u}, ω.Holds frame u → ω.Holds after u := by
    rintro u ⟨old, hold, hoty⟩
    by_cases hu : u = v
    · exact ⟨content, by rw [hvalue, if_pos hu], hu ▸ hty⟩
    · exact ⟨old, by rw [hvalue, if_neg hu, hold], hoty⟩
  obtain ⟨later, hlater⟩ := hscript
  constructor
  case reached => exact hreached
  case passes =>
    refine h.passes.inst (hlater.symm.trans (List.append_assoc ..)) (fun u hu => ?_) rfl
    show after.value? u = _
    rw [hvalue, if_neg hu]
  case passed => exact fun a ha u hu => hkeeps (h.passed a ha u hu)
  case here =>
    intro u hu
    rcases hu with hu | hu
    · rcases List.mem_append.1 hu with hu | hu
      · exact hkeeps (h.here u (.inl hu))
      · obtain rfl : u = v := by simpa using hu
        exact ⟨content, by rw [hvalue, if_pos rfl], hty⟩
    · exact hkeeps (h.here u (.inr hu))
  case typed => exact h.typed

/-- The activation executes an instruction, and its value holds the result. -/
theorem execute {program : Program} {mid : Frame} {inst : Inst} {ty : Ty} {content : Scalar}
    (h : ω.Course p b done frame latest) (hplaces : ω.Places b done v inst ty)
    (heval : Evaluated frame inst content mid) (hty : content.ty = ty) :
    ∃ after, (∃ n, 0 < n ∧ Leads program frame n (reportsOf frame inst) after) ∧
      ω.Course p b (done ++ [.inst v]) after latest ∧ after.value? v = some content ∧
      ∀ u, u ≠ v → after.value? u = frame.value? u := by
  obtain ⟨after, hleads, hreached, hvalue⟩ := h.reached.execute program hplaces heval
  refine ⟨after, hleads, h.assigned hplaces.script hreached (hty.trans ?_) hvalue,
    (hvalue v).trans (if_pos rfl), fun u hu => (hvalue u).trans (if_neg hu)⟩
  exact (congrArg Flow.ValueInfo.ty hplaces.info).symm

/-- A write is passed. -/
theorem write (h : ω.Course p b done frame latest) (hω : ω.Whole)
    (hscript : ω.record.script b = done ++ .write x v :: later) :
    ω.Course p b (done ++ [.write x v]) frame
      fun y => if y = x then some (frame.value? v) else latest y := by
  have hlength : (instsOf (done ++ [.write x v])).length = (instsOf done).length := by
    simp [List.filterMap_append, Event.inst?]
  obtain ⟨content, hcontent, hty⟩ := h.holds_operand hω.sound hscript (List.mem_singleton_self v)
  constructor
  case reached => exact ⟨h.reached.function, h.reached.waiting, h.reached.size, h.reached.block,
    h.reached.next.trans hlength.symm⟩
  case passes => exact h.passes.write hscript
  case passed => exact h.passed
  case here => exact fun u hu => h.here u (hu.imp_left (by simp))
  case typed =>
    intro y content' hy
    split at hy
    · next hyx =>
      cases hy
      refine ⟨content, hcontent, ?_⟩
      rw [hyx, hω.neat.writes (v := v) (b := b) (by rw [hscript]; simp), hty]
    · exact h.typed hy

/-- A read is passed, and finds what the variable was given last. -/
theorem read (h : ω.Course p b done frame latest) (hω : ω.Whole)
    (hscript : ω.record.script b = done ++ .read x v :: later) :
    ω.Course p b (done ++ [.read x v]) frame latest ∧ latest x = some (frame.value? v) := by
  have hlength : (instsOf (done ++ [.read x v])).length = (instsOf done).length := by
    simp [List.filterMap_append, Event.inst?]
  refine ⟨?_, h.passes.read_eq hω.sound.record hω.complete hscript⟩
  constructor
  case reached => exact ⟨h.reached.function, h.reached.waiting, h.reached.size, h.reached.block,
    h.reached.next.trans hlength.symm⟩
  case passes => exact h.passes.read hscript
  case passed => exact h.passed
  case here => exact fun u hu => h.here u (hu.imp_left (by simp))
  case typed => exact h.typed

/-! ### Edges -/

/-- What the phis take on an edge: each has an operand for it, which holds something of the type of
the phi. -/
theorem operand (h : ω.Course p b done frame latest) (hω : ω.Whole)
    (hscript : ω.record.script b = done) (hedge : c ∈ ω.builder.function.successors b)
    {phi : Value} (hphi : phi ∈ (ω.builder.info c).phis) :
    ∃ operand content, (ω.builder.incoming phi).find? (·.1 = b) = some operand ∧
      frame.value? operand.2 = some content ∧ content.ty = ω.builder.ty phi := by
  obtain ⟨x, howner⟩ := Option.ne_none_iff_exists'.1 (hω.sound.owned hphi)
  have hblock := (hω.sound.record.phis hphi).2
  have howned := hω.sound.record.coherent.owned howner
  rw [hblock] at howned
  have hneeds := hω.sound.record.needs howner
  rw [hblock] at hneeds
  obtain ⟨operand, hfind, hvalue⟩ := hω.sound.record.operand howner hphi
    (hω.complete.closed c howned.2.1) ((hω.sound.record.edges.mem b c).1 hedge)
  have hagrees := h.passes.agrees hω.sound.record hω.complete
  rw [← hscript] at hagrees
  obtain ⟨k, hk, hlatest⟩ := hagrees.at_end hω.sound.record hω.complete hneeds hedge
  obtain rfl : operand.2 = k := Option.some.inj (hvalue.symm.trans hk)
  obtain ⟨content, hcontent, hty⟩ := h.typed hlatest
  refine ⟨operand, content, hfind, hcontent, Option.some.inj ?_⟩
  rw [← hty, howned.2.2.2.1]

/-- Control moves along an edge. The phis of the target change, and nothing else does. -/
theorem edge (h : ω.Course p b done frame latest) (hω : ω.Whole)
    (hscript : ω.record.script b = done) (hedge : c ∈ ω.builder.function.successors b) :
    ∃ after, frame.Arrived c after ∧ ω.Course (p ++ [b]) c [] after latest ∧
      ∀ v, v ∉ (ω.builder.info c).phis → after.value? v = frame.value? v := by
  classical
  -- What each phi takes.
  let phis := (ω.builder.info c).phis
  let content : Value → Scalar := fun phi =>
    if hphi : phi ∈ phis then (h.operand hω hscript hedge hphi).choose_spec.choose else .unit
  have hcontent : ∀ phi ∈ phis, ∃ operand : Block × Value,
      (ω.builder.incoming phi).find? (·.1 = b) = some operand ∧
        frame.value? operand.2 = some (content phi) ∧ (content phi).ty = ω.builder.ty phi := by
    intro phi hphi
    have hspec := (h.operand hω hscript hedge hphi).choose_spec.choose_spec
    refine ⟨(h.operand hω hscript hedge hphi).choose, ?_⟩
    simp only [content, dif_pos hphi]
    exact hspec
  let after : Frame :=
    { frame.assignAll (phis.map fun phi => (phi, content phi)) with block := c, next := 0 }
  have hlt : ∀ v ∈ phis, v.index < frame.values.size := fun v hv =>
    h.reached.size ▸ (hω.sound.record.phis hv).1
  have hvalue : ∀ v, after.value? v = if v ∈ phis then some (content v) else frame.value? v :=
    Frame.value?_assignAll phis hlt
  have hkeeps : ∀ {u}, ω.Holds frame u → ω.Holds after u := by
    rintro u ⟨old, hold, hty⟩
    by_cases hu : u ∈ phis
    · obtain ⟨-, -, -, hty⟩ := hcontent u hu
      exact ⟨_, by rw [hvalue, if_pos hu], hty⟩
    · exact ⟨old, by rw [hvalue, if_neg hu, hold], hty⟩
  refine ⟨after, ⟨_, ?_, rfl⟩, ?_, fun v hv => by rw [hvalue, if_neg hv]⟩
  · -- The machine finds the same operands.
    have hphis : (frame.function.block c).phis = phis := by rw [h.reached.function]
    rw [hphis, List.forall₂_map_right_iff]
    refine List.forall₂_same.2 fun phi hphi => ⟨rfl, ?_⟩
    obtain ⟨operand, hfind, hoperand, -⟩ := hcontent phi hphi
    refine ⟨ω.builder.incoming phi, operand, ?_, ?_, hoperand⟩
    · rw [h.reached.function]
      have hmem := List.mem_of_find?_eq_some hfind
      unfold Builder.incoming at hmem ⊢
      split
      · next hinst => rw [hinst]
      · next hinst =>
        split at hmem
        · next incoming hphi => exact absurd hphi (hinst incoming)
        · cases hmem
    · rw [h.reached.block]
      exact hfind
  constructor
  case reached =>
    exact ⟨(frame.assignAll_function _).trans h.reached.function,
      (frame.assignAll_waiting _).trans h.reached.waiting,
      (Frame.size_assignAll _ _).trans h.reached.size, rfl, rfl⟩
  case passes =>
    have hpasses := h.passes
    rw [← hscript] at hpasses
    refine hpasses.edge hedge ⟨fun v hv operand hfind => ?_, fun v hv => ?_⟩
    · obtain ⟨operand', hfind', hoperand, -⟩ := hcontent v hv
      obtain rfl : operand' = operand := Option.some.inj (hfind'.symm.trans hfind)
      exact ((hvalue v).trans (if_pos hv)).trans hoperand.symm
    · exact (hvalue v).trans (if_neg hv)
  case passed =>
    intro a ha v hv
    rcases List.mem_append.1 ha with ha | ha
    · exact hkeeps (h.passed a ha v hv)
    · rw [List.mem_singleton.1 ha] at hv
      exact hkeeps (h.here v (hscript ▸ hv))
  case here =>
    intro v hv
    have hphi : v ∈ phis := hv.resolve_left (by simp)
    obtain ⟨-, -, -, hty⟩ := hcontent v hphi
    exact ⟨_, by rw [hvalue, if_pos hphi], hty⟩
  case typed => exact h.typed

/-! ### Ends of blocks -/

section

variable {program : Program}

/-- The edges of an end are edges of the graph. -/
theorem mem_successors {t : Terminator} (hends : ω.Ends b done t) (hc : c ∈ t.successors) :
    c ∈ ω.builder.function.successors b := by
  rw [Flow.Function.successors_eq hends.terminator]
  exact hc

/-- Control jumps. -/
theorem jump (h : ω.Course p b done frame latest) (hω : ω.Whole)
    (hends : ω.Ends b done (.jump c)) : ∃ after, (∃ n, 0 < n ∧ Leads program frame n [] after) ∧
      ω.Course (p ++ [b]) c [] after latest ∧
      ∀ v, v ∉ (ω.builder.info c).phis → after.value? v = frame.value? v := by
  obtain ⟨after, harrived, hcourse, hsame⟩ := h.edge hω hends.script
    (mem_successors hends (List.mem_singleton_self c))
  obtain ⟨hnone, hterm⟩ := h.reached.ends hω.sound hends (by simp)
  have hreports := h.reached.reports_ends hω.sound hends (by simp)
  refine ⟨after, ?_, hcourse, hsame⟩
  exact hreports ▸ leads_of_step h.reached.waiting (.jump hnone hterm harrived)

/-- A truth value decides where control goes. -/
theorem branch (h : ω.Course p b done frame latest) (hω : ω.Whole) {test : Value}
    {first second : Block} (hends : ω.Ends b done (.branch test first second)) {taken : Bool}
    (htest : frame.value? test = some (.bool taken)) :
    ∃ after, (∃ n, 0 < n ∧ Leads program frame n [] after) ∧
      ω.Course (p ++ [b]) (if taken then first else second) [] after latest ∧
      ∀ v, v ∉ (ω.builder.info (if taken then first else second)).phis →
        after.value? v = frame.value? v := by
  have hmem : (if taken then first else second) ∈ (Terminator.branch test first second).successors := by
    cases taken <;> simp [Terminator.successors]
  obtain ⟨after, harrived, hcourse, hsame⟩ := h.edge hω hends.script (mem_successors hends hmem)
  obtain ⟨hnone, hterm⟩ := h.reached.ends hω.sound hends (by simp)
  have hreports := h.reached.reports_ends hω.sound hends (by simp)
  have htaken : isTaken frame test = .ok taken := by
    unfold isTaken
    rw [Frame.read_eq_ok_iff.2 htest]
    rfl
  refine ⟨after, ?_, hcourse, hsame⟩
  exact hreports ▸ leads_of_step h.reached.waiting (.branch hnone hterm htaken harrived)

end

end Course

/-- The phis of a block are made after the block. -/
theorem Extends.le_phi {σ : Plan} (e : Extends σ ω) (hσ : σ.Sound) (hω : ω.Sound)
    (hc : σ.builder.blockCount ≤ c.index) (hv : v ∈ (ω.builder.info c).phis) :
    σ.builder.valueCount ≤ v.index := by
  by_contra hlt
  have hlt' : v.index < σ.builder.valueCount := Nat.not_le.1 hlt
  obtain ⟨x, howner⟩ := Option.ne_none_iff_exists'.1 (hω.owned hv)
  have howner' := (e.owner hlt').symm.trans howner
  have hexists := (hσ.record.coherent.owned howner').2.1
  rw [← (e.frame hlt').2, (hω.record.phis hv).2] at hexists
  exact absurd hc (Nat.not_le.2 hexists)

/-! ## Walks -/

/-- An activation goes on from `frame` and comes to the course of `after` without a report. Values with
an index below `first` hold what they held. -/
structure Walk (program : Program) (ω : Plan) (first : Nat) (frame : Frame) (p : List Block)
    (b : Block) (done : List Event) (after : Frame) (latest : SymbolId → Option (Option Scalar)) :
    Prop where
  leads : ∃ n, Leads program frame n [] after
  course : ω.Course p b done after latest
  keeps : ∀ u : Value, u.index < first → after.value? u = frame.value? u

namespace Walk

variable {program : Program} {first : Nat} {after : Frame} {later : List Event}
  {latest : SymbolId → Option (Option Scalar)}

theorem start (h : ω.Course p b done frame latest) (first : Nat) :
    Walk program ω first frame p b done frame latest := ⟨⟨0, .rfl' frame⟩, h, fun _ _ => rfl⟩

/-- The course may be looked at in other terms, as long as the activation does not move. -/
theorem recourse {p' : List Block} {b' : Block} {done' : List Event}
    {latest' : SymbolId → Option (Option Scalar)} (h : Walk program ω first frame p b done after latest)
    (hcourse : ω.Course p' b' done' after latest') :
    Walk program ω first frame p' b' done' after latest' := ⟨h.leads, hcourse, h.keeps⟩

theorem execute {inst : Inst} {ty : Ty} {content : Scalar} {mid : Frame}
    (h : Walk program ω first frame p b done after latest) (hplaces : ω.Places b done v inst ty)
    (heval : Evaluated after inst content mid) (hty : content.ty = ty)
    (hreports : reportsOf after inst = []) (hnew : first ≤ v.index) :
    ∃ next, Walk program ω first frame p b (done ++ [.inst v]) next latest ∧
      next.value? v = some content ∧ ∀ u, u ≠ v → next.value? u = after.value? u := by
  obtain ⟨n, hleads⟩ := h.leads
  obtain ⟨next, ⟨m, -, hleads'⟩, hcourse, hv, hkeeps⟩ := h.course.execute hplaces heval hty
  rw [hreports] at hleads'
  refine ⟨next, ⟨⟨n + m, hleads.trans hleads'⟩, hcourse, fun u hu => ?_⟩, hv, hkeeps⟩
  refine (hkeeps u ?_).trans (h.keeps u hu)
  rintro rfl
  exact Nat.not_le.2 hu hnew

/-- Control jumps to a block whose phis are new. -/
theorem jump (h : Walk program ω first frame p b done after latest) (hω : ω.Whole)
    (hends : ω.Ends b done (.jump c)) (hphis : ∀ phi ∈ (ω.builder.info c).phis, first ≤ phi.index) :
    ∃ next, Walk program ω first frame (p ++ [b]) c [] next latest ∧
      ∀ v, v ∉ (ω.builder.info c).phis → next.value? v = after.value? v := by
  obtain ⟨n, hleads⟩ := h.leads
  obtain ⟨next, ⟨m, -, hleads'⟩, hcourse, hsame⟩ := h.course.jump hω hends
  refine ⟨next, ⟨⟨n + m, hleads.trans hleads'⟩, hcourse, fun u hu => ?_⟩, hsame⟩
  exact (hsame u fun hphi => Nat.not_le.2 hu (hphis u hphi)).trans (h.keeps u hu)

/-- A truth value decides where control goes. -/
theorem branch (h : Walk program ω first frame p b done after latest) (hω : ω.Whole) {test : Value}
    {thenDest elseDest : Block} (hends : ω.Ends b done (.branch test thenDest elseDest)) {taken : Bool}
    (htest : after.value? test = some (.bool taken)) (hc : c = if taken then thenDest else elseDest)
    (hone : ω.OneWay c b) : ∃ next, Walk program ω first frame (p ++ [b]) c [] next latest ∧
      ∀ v, next.value? v = after.value? v := by
  subst hc
  obtain ⟨n, hleads⟩ := h.leads
  obtain ⟨next, ⟨m, -, hleads'⟩, hcourse, hsame⟩ := h.course.branch hω hends htest
  rw [hone.phis hω.sound] at hsame
  have hall : ∀ v, next.value? v = after.value? v := fun v => hsame v List.not_mem_nil
  exact ⟨next, ⟨⟨n + m, hleads.trans hleads'⟩, hcourse, fun u hu => (hall u).trans (h.keeps u hu)⟩,
    hall⟩

end Walk

end Plan

end Abacus.Lowering
