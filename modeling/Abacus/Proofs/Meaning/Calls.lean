import Abacus.Proofs.Meaning.Following

/-!
# Following calls

An activation that comes to where a call has been lowered calls the function, and then does what the
evaluation does with the answer. A call without a handler passes a fault on. A call with one goes to
its landing block, finds the type of the program there, reports the fault and gives back 0.

* `Reached.calls`, `Reached.invokes` — the function is called;
* `Reached.handles` — a fault is taken by the handler;
* `Course.returned`, `Course.resumed` — the activation goes on with what has been given back;
* `Called.follows` — all calls.
-/

namespace Abacus.Machine.Frame

variable {frame after : Frame} {c : Flow.Block}

theorem assignAll_skip (contents : List (Flow.Value × Scalar)) :
    frame.skip.assignAll contents = (frame.assignAll contents).skip := by
  induction contents generalizing frame with
  | nil => rfl
  | cons first rest ih => exact @ih (frame.assign first.1 first.2)

/-- Where control is in a block does not matter once it leaves the block. -/
theorem Arrived.of_skip (h : frame.skip.Arrived c after) : frame.Arrived c after := by
  obtain ⟨contents, htakes, rfl⟩ := h
  refine ⟨contents, htakes, ?_⟩
  rw [assignAll_skip]
  rfl

end Abacus.Machine.Frame

namespace Abacus.Lowering.Plan

open Abacus.Flow (Value Block Ty Inst Terminator)
open Abacus.Machine
open Abacus.Meaning

variable {ω : Plan} {p : List Block} {b c : Block} {done : List Event} {frame inner : Frame}
  {program : Program} {v : Value} {ty : Ty} {callee : String} {arguments : List Value}
  {contents : List Scalar} {f : Flow.Function} {latest : SymbolId → Option (Option Scalar)}

/-! ## The function is called -/

namespace Reached

theorem calls (h : ω.Reached b done frame)
    (hplaces : ω.Places b done v (.call callee arguments) ty) (hf : program.get? callee = some f)
    (hcontents : arguments.map frame.value? = contents.map some) : frame.reports = [] ∧
      Stepped program frame (.calling { frame with waiting := some (.call v) } f contents) := by
  obtain ⟨hv, hinst⟩ := h.insts hplaces
  refine ⟨?_, .call hv hinst hf hcontents⟩
  simp only [Frame.reports, hv, hinst, reportsOf]

theorem invokes (h : ω.Reached b done frame) (hω : ω.Sound) {normal unwind : Block}
    (hends : ω.Ends b (done ++ [.inst v]) (.invoke v normal unwind))
    (hinfo : ω.builder.valueInfo v = ⟨ty, .call callee arguments, b⟩)
    (hf : program.get? callee = some f)
    (hcontents : arguments.map frame.value? = contents.map some) : frame.reports = [] ∧
      Stepped program frame
        (.calling { frame with waiting := some (.invoke v normal unwind) } f contents) := by
  obtain ⟨hnone, hterm⟩ := h.ends_invoke hω hends
  refine ⟨?_, .invoke hnone hterm ?_ hf hcontents⟩
  · simp only [Frame.reports, hnone]
  · rw [h.function]
    exact congrArg Flow.ValueInfo.inst hinfo

end Reached

/-! ## The handler -/

/-- Values with different instructions are different. -/
theorem Places.ne {done' : List Event} {v' : Value} {inst inst' : Inst} {ty' : Ty}
    (h : ω.Places b done v inst ty) (h' : ω.Places c done' v' inst' ty') (hne : inst ≠ inst') :
    v ≠ v' := by
  rintro rfl
  have hinfo := h.info.symm.trans h'.info
  exact hne (congrArg Flow.ValueInfo.inst hinfo)

section

variable {config : FaultConfig} {sites : InvokeSites} {fault : Fault}
  {pad selector typeId isOurs code reported finished zero : Value}

/-- In the landing block the type of the fault turns out to be that of the program. -/
theorem Reached.lands (h : ω.Reached sites.landing [] frame) (hω : ω.Sound)
    (hat : LandingAt config ω sites pad selector typeId isOurs)
    (hfault : frame.inFlight = some fault) (htype : fault.typeId = config.typeId) :
    ∃ after, (∃ n, Leads program frame n [] after) ∧ ω.Reached sites.caught [] after ∧
      after.value? pad = some (.fault fault) := by
  obtain ⟨f₁, ⟨n₁, -, hleads₁⟩, h₁, hv₁⟩ := h.execute program hat.pads (.landingPad hfault)
  have hpad₁ : f₁.value? pad = some (.fault fault) := by rw [hv₁, if_pos rfl]
  obtain ⟨f₂, ⟨n₂, -, hleads₂⟩, h₂, hv₂⟩ :=
    h₁.execute program hat.selects (.faultSelector hpad₁)
  obtain ⟨f₃, ⟨n₃, -, hleads₃⟩, h₃, hv₃⟩ := h₂.execute program hat.types (.faultTypeId _)
  have hselector : f₃.value? selector = some (.int config.typeId) := by
    rw [hv₃, if_neg (hat.selects.ne hat.types (by simp)), hv₂, if_pos rfl, htype]
  have htypeId : f₃.value? typeId = some (.int config.typeId) := by rw [hv₃, if_pos rfl]
  obtain ⟨f₄, ⟨n₄, -, hleads₄⟩, h₄, hv₄⟩ :=
    h₃.execute program hat.compares (.intCompare hselector htypeId)
  have htest : f₄.value? isOurs = some (.bool true) := by
    rw [hv₄, if_pos rfl]
    simp [intCompare]
  -- Nothing but the fault has been assigned to the pad.
  have hpad₄ : f₄.value? pad = some (.fault fault) := by
    rw [hv₄, if_neg (hat.pads.ne hat.compares (by simp)), hv₃,
      if_neg (hat.pads.ne hat.types (by simp)), hv₂,
      if_neg (hat.pads.ne hat.selects (by simp)), hpad₁]
  obtain ⟨⟨n₅, -, hleads₅⟩, h₅⟩ := h₄.branch hω hat.branches htest hat.toCaught
  exact ⟨_, ⟨_, hleads₁.trans (hleads₂.trans (hleads₃.trans (hleads₄.trans hleads₅)))⟩, h₅, hpad₄⟩

/-- The fault is reported, and 0 is given back. -/
theorem Reached.reports (h : ω.Reached b [] frame) (hω : ω.Sound)
    (hat : CaughtAt ω b pad code reported finished zero)
    (hfault : frame.value? pad = some (.fault fault)) :
    ∃ n, Closes program frame n [⟨ω.builder.function.name, fault.code⟩] (.returned (.int 0)) := by
  obtain ⟨f₁, ⟨n₁, -, hleads₁⟩, h₁, hv₁⟩ := h.execute program hat.catches (.beginCatch hfault)
  have hcode : f₁.value? code = some (.int fault.code) := by rw [hv₁, if_pos rfl]
  obtain ⟨f₂, ⟨n₂, -, hleads₂⟩, h₂, -⟩ := h₁.execute program hat.reports (.reportFault hcode)
  obtain ⟨f₃, ⟨n₃, -, hleads₃⟩, h₃, -⟩ := h₂.execute program hat.finishes .endCatch
  obtain ⟨f₄, ⟨n₄, -, hleads₄⟩, h₄, hv₄⟩ := h₃.execute program hat.constant (.intConst 0)
  obtain ⟨n₅, hcloses⟩ : ∃ n, Closes program f₄ n [] (.returned (.int 0)) :=
    h₄.ret hω hat.returns ((hv₄ zero).trans (if_pos rfl))
  have hreports : reportsOf f₁ (.reportFault code) = [⟨ω.builder.function.name, fault.code⟩] := by
    simp only [reportsOf, hcode, h₁.function]
  rw [hreports] at hleads₂
  exact ⟨_, hleads₁.closes (hleads₂.closes (hleads₃.closes (hleads₄.closes hcloses)))⟩

end

/-! ## What has been given back -/

/-- A fault arrives in the landing block. -/
theorem Reached.landed (h : ω.Reached b done frame) (hω : ω.Sound) {unwind : Block}
    (hone : ω.OneWay unwind b) (v : Value) (normal : Block) (fault : Fault) : ∃ after,
      Delivered { frame with waiting := some (.invoke v normal unwind) } (.unwinding fault)
        (.ok after) ∧ ω.Reached unwind [] after ∧ after.inFlight = some fault := by
  obtain ⟨harrived, hreached⟩ := (h.inFlight (some fault)).arrived hω hone
  refine ⟨_, .landed rfl ?_, hreached, rfl⟩
  have hframe : ({ frame with waiting := none, inFlight := some fault } : Frame) =
      { frame with inFlight := some fault } := by rw [← h.waiting]
  exact hframe ▸ harrived

namespace Course

/-- The activation goes on behind a call with the result. -/
theorem returned (h : ω.Course p b done frame latest)
    (hplaces : ω.Places b done v (.call callee arguments) .int) (n : Int64) : ∃ after,
      Delivered { frame with waiting := some (.call v) } (.returned (.int n)) (.ok after) ∧
        ω.Course p b (done ++ [.inst v]) after latest ∧
          ∀ u, after.value? u = if u = v then some (.int n) else frame.value? u := by
  have hvalue := h.reached.value?_assign (v := v) (.int n) hplaces.lt
  refine ⟨(frame.assign v (.int n)).skip, ?_, ?_, hvalue⟩
  · have hdelivered : Delivered { frame with waiting := some (.call v) } (.returned (.int n)) _ :=
      .returned rfl
    have hframe : ({ frame with waiting := none } : Frame) = frame := by rw [← h.reached.waiting]
    rwa [hframe] at hdelivered
  · refine h.assigned hplaces.script (h.reached.assign (.int n)) ?_ hvalue
    exact (congrArg Flow.ValueInfo.ty hplaces.info).symm

/-- The activation goes on behind a call with a handler. -/
theorem resumed (h : ω.Course p b done frame latest) (hω : ω.Whole) {normal unwind : Block}
    (hinfo : ω.builder.valueInfo v = ⟨.int, .call callee arguments, b⟩)
    (hlt : v.index < ω.builder.valueCount)
    (hends : ω.Ends b (done ++ [.inst v]) (.invoke v normal unwind))
    (hone : ω.OneWay normal b) (n : Int64) : ∃ after,
      Delivered { frame with waiting := some (.invoke v normal unwind) } (.returned (.int n))
        (.ok after) ∧ ω.Course (p ++ [b]) normal [] after latest ∧
          ∀ u, after.value? u = if u = v then some (.int n) else frame.value? u := by
  have hvalue := h.reached.value?_assign (v := v) (.int n) hlt
  have hty : (Scalar.int n).ty = ω.builder.ty v := (congrArg Flow.ValueInfo.ty hinfo).symm
  -- As if the next instruction had been gone to, control moves along the edge.
  have hassigned : ω.Course p b (done ++ [.inst v]) (frame.assign v (.int n)).skip latest :=
    h.assigned ⟨[], (List.append_nil _).trans hends.script.symm⟩ (h.reached.assign (.int n))
      hty hvalue
  have hedge : normal ∈ ω.builder.function.successors b := mem_successors hends (by
    simp [Terminator.successors])
  obtain ⟨after, harrived, hcourse, hsame⟩ := hassigned.edge hω hends.script hedge
  refine ⟨after, .normal rfl ?_, hcourse, fun u => ?_⟩
  · have hframe : ({ frame with waiting := none } : Frame) = frame := by rw [← h.reached.waiting]
    rw [hframe]
    exact harrived.of_skip
  · rw [hsame u (by rw [hone.phis hω.sound]; exact List.not_mem_nil), hvalue]

end Course

/-! ## Calls -/

section

variable {S : Setting} {config : FaultConfig} {opened symbols : SymbolTable} {σ σ' : Plan}
  {ctx : Context} {depth : Nat} {w : World} {name : String} {values : List Int64}

/-- What the evaluation does with the answer to a call, the activation does with what comes out of it. -/
theorem follows_call {caller : Frame} {mayFault : Bool} {post : Number → World → Frame → Prop}
    (hwaiting : frame.waiting = none)
    (hcalls : frame.reports = [] ∧ Stepped S.program frame (.calling caller f contents))
    (henter : Frame.enter f contents = .ok inner)
    (hanswers : Answers S.program S.fault depth mayFault inner (ctx.call name values))
    (hvalue : ∀ n : Int64, ∃ after, Delivered caller (.returned (.int n)) (.ok after) ∧
      ∀ w' : World, w'.vars = w.vars → post (.int n) w' after)
    (hpasses : mayFault = true → name = ctx.self →
      S.mayFault = true ∧ Delivered caller (.unwinding S.fault) (.error S.fault))
    (hhandles : mayFault = true → name ≠ ctx.self → ∃ after,
      Delivered caller (.unwinding S.fault) (.ok after) ∧
        ∃ n, Closes S.program after n [⟨ctx.self, ctx.code⟩] (.returned (.int 0))) :
    Follows S (depth + 1) frame w (call ctx name values) post := by
  obtain ⟨hreports, hstep⟩ := hcalls
  generalize hresult : ctx.call name values = result at hanswers
  cases hanswers with
  | @value n m reports hcloses =>
    obtain ⟨after, hdelivered, hpost⟩ := hvalue n
    obtain ⟨k, -, hleads⟩ := leads_of_call hwaiting hstep henter hcloses hdelivered
    rw [hreports, List.nil_append] at hleads
    refine .goes (u := { w with reports := w.reports ++ reports }) ?_ hleads rfl (hpost _ rfl)
    unfold call
    rw [hresult]
    rfl
  | @fault m reports hflag hcloses =>
    by_cases hself : name = ctx.self
    · obtain ⟨hmay, hdelivered⟩ := hpasses hflag hself
      obtain ⟨k, hcloses'⟩ := closes_of_call hwaiting hstep henter hcloses hdelivered
      rw [hreports, List.nil_append] at hcloses'
      refine .faults (u := { w with reports := w.reports ++ reports }) ?_ hmay hcloses' rfl
      unfold call
      rw [hresult]
      simp only [if_pos hself]
      rfl
    · obtain ⟨after, hdelivered, k, hends⟩ := hhandles hflag hself
      obtain ⟨l, -, hleads⟩ := leads_of_call hwaiting hstep henter hcloses hdelivered
      rw [hreports, List.nil_append] at hleads
      refine .returns (u := { w with reports := w.reports ++ reports ++ [⟨ctx.self, ctx.code⟩] })
        ?_ (hleads.closes hends) (List.append_assoc ..)
      unfold call
      rw [hresult]
      simp only [if_neg hself]
      rfl
  | @exhausted reports hlasts =>
    refine .lasts (u := { w with reports := w.reports ++ reports }) ?_
      (lasts_of_call hwaiting hstep henter hlasts)
    unfold call
    rw [hresult]
    rfl

/-- A call comes to where lowering has gone on behind it, and its value holds the result. -/
theorem Called.follows {vs : List Value} {handled : Bool} {id : SymbolId} {arity : Nat}
    (h : Called config σ name vs handled v σ') (hS : Scene S config opened ω ctx depth)
    (hσ : σ.Ready) (hvs : ∀ u ∈ vs, σ.Has σ.current u) (e : Extends σ' ω)
    (ha : Abreast opened ω σ symbols w.vars frame)
    (hvalues : vs.map frame.value? = (values.map Scalar.int).map some)
    (hname : opened.lookup? name = some ⟨id, .function arity handled⟩)
    (hcount : values.length = arity) : Follows S (depth + 1) frame w (call ctx name values)
      fun n => Yields opened ω σ σ' symbols w frame [v] [n.scalar] := by
  obtain ⟨path, latest, hcourse, hmirror⟩ := ha
  obtain ⟨mayFault, ⟨f, inner, hf, henter, hanswers⟩, hmay⟩ := hS.calls hname hcount
  have hwaiting := hcourse.reached.waiting
  cases h with
  | plain =>
    have hplaces := (hσ.sound.places_emit hσ.isOpen (.call name vs) .int).mono e
    refine follows_call hwaiting (hcourse.reached.calls hplaces hf hvalues) henter hanswers
      (fun n => ?_) (fun hflag hself => ?_) fun hflag hself => ?_
    · obtain ⟨after, hdelivered, hcourse', hvalue⟩ := hcourse.returned hplaces n
      rw [← script_emit_self (.call name vs) .int] at hcourse'
      refine ⟨after, hdelivered, fun w' hvars => ⟨hvars, ⟨⟨path, latest, hcourse', hmirror⟩, ?_⟩, ?_⟩⟩
      · intro u hu
        rw [hvalue, if_neg]
        rintro rfl
        exact Nat.lt_irrefl _ hu
      · simp [hvalue, Number.scalar]
    · have := hmay hflag
      rw [if_pos hself] at this
      exact ⟨this.2, .passed rfl⟩
    · -- The call would have a handler.
      have := hmay hflag
      rw [if_neg hself] at this
      cases this
  | handled hinvoked =>
    obtain ⟨-, hscript, hcurrent, hat⟩ := hinvoked.stages hσ hvs
    obtain ⟨pad, selector, typeId, isOurs, code, reported, finished, zero, hat⟩ := hat e
    refine follows_call hwaiting
      (hcourse.reached.invokes hS.whole.sound hat.calls hat.info hf hvalues) henter hanswers
      (fun n => ?_) (fun hflag hself => ?_) fun hflag hself => ?_
    · obtain ⟨after, hdelivered, hcourse', hvalue⟩ :=
        hcourse.resumed hS.whole hat.info hat.lt hat.calls hat.toNormal n
      have hcourse'' : ω.Course (path ++ [σ.current]) σ'.current (σ'.record.script σ'.current) after
          latest := by rwa [hscript, hcurrent]
      refine ⟨after, hdelivered, fun w' hvars => ⟨hvars, ⟨⟨_, latest, hcourse'', hmirror⟩, ?_⟩, ?_⟩⟩
      · intro u hu
        rw [hvalue, if_neg]
        rintro rfl
        obtain rfl : u = σ.next := by
          cases hinvoked
          rfl
        exact Nat.lt_irrefl _ hu
      · simp [hvalue, Number.scalar]
    · -- The call would have no handler.
      have := hmay hflag
      rw [if_pos hself] at this
      cases this.1
    · have hω := hS.whole.sound
      obtain ⟨after, hdelivered, hlanded, hfault⟩ :=
        hcourse.reached.landed hω hat.toLanding v σ.sitesOf.normal S.fault
      refine ⟨after, hdelivered, ?_⟩
      obtain ⟨last, ⟨n, hleads⟩, hcaught, hpad⟩ : ∃ last, (∃ n, Leads S.program after n [] last) ∧
          ω.Reached σ.sitesOf.caught [] last ∧ last.value? pad = some (.fault S.fault) :=
        hlanded.lands hω hat.landing hfault (by rw [hS.fault])
      obtain ⟨m, hcloses⟩ : ∃ m, Closes S.program last m [⟨ω.builder.function.name, S.fault.code⟩]
          (.returned (.int 0)) := hcaught.reports hω hat.caught hpad
      rw [hS.self, hS.fault, ← hS.code] at hcloses
      exact ⟨n + m, hleads.closes hcloses⟩

end

end Abacus.Lowering.Plan
