import Abacus.Lowering.Fault
import Abacus.Proofs.Faults.Blocks

/-!
# Handlers and checked divisions

What a function does where a call with a handler or a checked division stands in it. Nothing else needs to
be known of the function than the blocks that these consist of.

* `HandlerAt` — a call with its handler;
* `HandlerAt.tested`, `HandlerAt.reports`, `HandlerAt.refused` — the stages of the handler;
* `Handles`, `HandlerAt.handles` — what becomes of each outcome of the call;
* `DivisionAt`, `Divides`, `DivisionAt.divides` — the same for a checked division.
-/

namespace Abacus.Lowering

open Abacus.Flow (Function Value Block Inst)
open Abacus.Machine

variable {config : FaultConfig} {p : Program} {f : Function} {q : Block} {callee : String}
  {arguments : List Value} {v : Value} {sites : InvokeSites} {first : Nat} {frame inner : Frame}
  {fault : Fault}

/-! ## The handler -/

/-- A call with its handler. The values of the handler are numbered from `first` on: the first one is the
fault, and the second one its type. -/
structure HandlerAt (config : FaultConfig) (f : Function) (q : Block) (callee : String)
    (arguments : List Value) (v : Value) (sites : InvokeSites) (first : Nat) : Prop where
  exists' : v.index < f.values.size
  call : f.inst v = .call callee arguments
  calls : ∃ count, f.Closed q count (.invoke v sites.normal sites.landing)
  plain : ∀ stage, (f.block (sites.block stage)).phis = []
  landing : f.Has sites.landing 0 first [.landingPad, .faultSelector ⟨first⟩, .faultTypeId config.typeId,
    .intCompare .equal ⟨first + 1⟩ ⟨first + 2⟩]
  landingEnd : f.Closed sites.landing 4 (.branch ⟨first + 3⟩ sites.caught sites.faulted)
  caught : f.Has sites.caught 0 (first + 4) [.beginCatch ⟨first⟩, .reportFault ⟨first + 4⟩, .endCatch,
    .intConst 0]
  caughtEnd : f.Closed sites.caught 4 (.ret ⟨first + 7⟩)
  faulted : f.Has sites.faulted 0 (first + 8) [.intConst 0, .intCompare .less ⟨first + 1⟩ ⟨first + 8⟩]
  faultedEnd : f.Closed sites.faulted 2 (.branch ⟨first + 9⟩ sites.unexpected sites.cleanup)
  unexpected : f.Has sites.unexpected 0 (first + 10) [.callUnexpected ⟨first⟩]
  cleanupEnd : f.Closed sites.cleanup 0 (.resume ⟨first⟩)

namespace HandlerAt

variable (h : HandlerAt config f q callee arguments v sites first)
include h

/-- The landing block compares the type of the fault with that of the program. -/
theorem tested (hframe : frame.Stands f sites.landing 0) (hfault : frame.inFlight = some fault) :
    ∃ n next, Leads p frame n [] next ∧
      next.Stands f (if fault.typeId = config.typeId then sites.caught else sites.faulted) 0 ∧
      next.value? ⟨first⟩ = some (.fault fault) ∧
      next.value? ⟨first + 1⟩ = some (.int fault.typeId) := by
  obtain ⟨n₁, frame₁, hleads₁, hframe₁, hvalue₁⟩ :=
    hframe.executes (p := p) h.landing (i := 0) rfl (.landingPad hfault)
  have hpad : frame₁.value? ⟨first⟩ = some (.fault fault) := by simp [hvalue₁]
  obtain ⟨n₂, frame₂, hleads₂, hframe₂, hvalue₂⟩ :=
    hframe₁.executes (p := p) h.landing (i := 1) rfl (.faultSelector hpad)
  obtain ⟨n₃, frame₃, hleads₃, hframe₃, hvalue₃⟩ :=
    hframe₂.executes (p := p) h.landing (i := 2) rfl (.faultTypeId config.typeId)
  have hselector : frame₃.value? ⟨first + 1⟩ = some (.int fault.typeId) := by simp [hvalue₃, hvalue₂]
  have htype : frame₃.value? ⟨first + 2⟩ = some (.int config.typeId) := by simp [hvalue₃]
  obtain ⟨n₄, frame₄, hleads₄, hframe₄, hvalue₄⟩ :=
    hframe₃.executes (p := p) h.landing (i := 3) rfl (.intCompare hselector htype)
  have hours : frame₄.value? ⟨first + 3⟩ = some (.bool (fault.typeId == config.typeId)) := by
    simp [hvalue₄, intCompare]
  obtain ⟨n₅, hleads₅⟩ := hframe₄.branches (p := p) h.landingEnd hours (by
    split
    · exact h.plain .caught
    · exact h.plain .faulted)
  have hall := hleads₁.trans (hleads₂.trans (hleads₃.trans (hleads₄.trans hleads₅)))
  refine ⟨_, _, hall, ?_, ?_, ?_⟩
  · simpa using hframe₄.moved (if fault.typeId = config.typeId then sites.caught else sites.faulted)
  · show frame₄.value? ⟨first⟩ = _
    simp [hvalue₄, hvalue₃, hvalue₂, hvalue₁]
  · show frame₄.value? ⟨first + 1⟩ = _
    simp [hvalue₄, hselector]

/-- A fault of the program is reported, and 0 is given back. -/
theorem reports (hframe : frame.Stands f sites.caught 0)
    (hpad : frame.value? ⟨first⟩ = some (.fault fault)) :
    ∃ n, Closes p frame n [⟨f.name, fault.code⟩] (.returned (.int 0)) := by
  obtain ⟨n₁, frame₁, hleads₁, hframe₁, hvalue₁⟩ :=
    hframe.executes (p := p) h.caught (i := 0) rfl (.beginCatch hpad)
  have hcode : frame₁.value? ⟨first + 4⟩ = some (.int fault.code) := by simp [hvalue₁]
  obtain ⟨n₂, frame₂, hleads₂, hframe₂, hvalue₂⟩ :=
    hframe₁.executes (p := p) h.caught (i := 1) rfl (.reportFault hcode)
  have hreport : reportsOf frame₁ (.reportFault ⟨first + 4⟩) = [⟨f.name, fault.code⟩] := by
    simp only [reportsOf, hcode, hframe₁.function]
  rw [hreport] at hleads₂
  obtain ⟨n₃, frame₃, hleads₃, hframe₃, hvalue₃⟩ :=
    hframe₂.executes (p := p) h.caught (i := 2) rfl .endCatch
  obtain ⟨n₄, frame₄, hleads₄, hframe₄, hvalue₄⟩ :=
    hframe₃.executes (p := p) h.caught (i := 3) rfl (.intConst 0)
  have hzero : frame₄.value? ⟨first + 7⟩ = some (.int 0) := by simp [hvalue₄]
  obtain ⟨n₅, hcloses⟩ := hframe₄.returns (p := p) h.caughtEnd hzero
  exact ⟨_, hleads₁.closes (hleads₂.closes (hleads₃.closes (hleads₄.closes hcloses)))⟩

/-- A fault of another type is looked at once more. -/
theorem refused (hframe : frame.Stands f sites.faulted 0)
    (hpad : frame.value? ⟨first⟩ = some (.fault fault))
    (hselector : frame.value? ⟨first + 1⟩ = some (.int fault.typeId)) : ∃ n next, Leads p frame n [] next ∧
      next.Stands f (if fault.typeId < 0 then sites.unexpected else sites.cleanup) 0 ∧
      next.value? ⟨first⟩ = some (.fault fault) := by
  obtain ⟨n₁, frame₁, hleads₁, hframe₁, hvalue₁⟩ :=
    hframe.executes (p := p) h.faulted (i := 0) rfl (.intConst 0)
  have hselector₁ : frame₁.value? ⟨first + 1⟩ = some (.int fault.typeId) := by simp [hvalue₁, hselector]
  have hzero : frame₁.value? ⟨first + 8⟩ = some (.int 0) := by simp [hvalue₁]
  obtain ⟨n₂, frame₂, hleads₂, hframe₂, hvalue₂⟩ :=
    hframe₁.executes (p := p) h.faulted (i := 1) rfl (.intCompare hselector₁ hzero)
  have hforeign : frame₂.value? ⟨first + 9⟩ = some (.bool (fault.typeId < 0)) := by
    simp [hvalue₂, intCompare]
  obtain ⟨n₃, hleads₃⟩ := hframe₂.branches (p := p) h.faultedEnd hforeign (by
    split
    · exact h.plain .unexpected
    · exact h.plain .cleanup)
  refine ⟨_, _, hleads₁.trans (hleads₂.trans hleads₃), ?_, ?_⟩
  · simpa using hframe₂.moved (if fault.typeId < 0 then sites.unexpected else sites.cleanup)
  · show frame₂.value? ⟨first⟩ = _
    simp [hvalue₂, hvalue₁, hpad, Nat.add_assoc]

end HandlerAt

/-- What becomes of a call with a handler, which stands at the end of the block where `frame` is: the
function that is called begins with the frame `inner`. -/
structure Handles (config : FaultConfig) (p : Program) (v : Value) (normal : Block) (frame inner : Frame) :
    Prop where
  returned : ∀ {n reports content}, Closes p inner n reports (.returned content) →
    (frame.assign v content).value? v = some content ∧
      ∃ m, Leads p frame m reports { frame.assign v content with block := normal, next := 0 }
  ours : ∀ {n reports code}, Closes p inner n reports (.unwinding ⟨code, config.typeId⟩) →
    ∃ m, Closes p frame m (reports ++ [⟨frame.function.name, code⟩]) (.returned (.int 0))
  foreign : ∀ {n reports code typeId}, typeId ≠ config.typeId → typeId < 0 →
    Closes p inner n reports (.unwinding ⟨code, typeId⟩) →
    ∃ m, ∀ (callers : List Frame) (fuel : Nat) (t : Tally), t.steps + m ≤ fuel →
      remaining p fuel ⟨frame, callers⟩ t = .error (.unexpected frame.function.name)
  other : ∀ {n reports code typeId}, typeId ≠ config.typeId → 0 ≤ typeId →
    Closes p inner n reports (.unwinding ⟨code, typeId⟩) →
    ∃ m, Closes p frame m reports (.unwinding ⟨code, typeId⟩)

/-- What the handler makes of each outcome of the call. -/
theorem HandlerAt.handles {g : Function} {contents : List Scalar}
    (h : HandlerAt config f q callee arguments v sites first)
    (hframe : frame.Stands f q (f.block q).insts.size) (hg : p.get? callee = some g)
    (hcontents : arguments.map frame.value? = contents.map some)
    (henter : Frame.enter g contents = .ok inner) : Handles config p v sites.normal frame inner := by
  obtain ⟨count, hcount, hterm⟩ := h.calls
  have hclosed : f.Closed q (f.block q).insts.size (.invoke v sites.normal sites.landing) := ⟨rfl, hterm⟩
  -- Every fault comes to the landing block first.
  have hlands : ∀ {n reports fault}, Closes p inner n reports (.unwinding fault) →
      ∃ m next, Leads p frame m reports next ∧
        next.Stands f (if fault.typeId = config.typeId then sites.caught else sites.faulted) 0 ∧
        next.value? ⟨first⟩ = some (.fault fault) ∧ next.value? ⟨first + 1⟩ = some (.int fault.typeId) := by
    intro n reports fault hinner
    obtain ⟨m, hleads⟩ := hframe.lands hclosed h.call (h.plain .checking) hg hcontents henter hinner
    have hlanded : ({ frame with inFlight := some fault, block := sites.landing, next := 0 } : Frame).Stands
        f sites.landing 0 := ⟨hframe.function, hframe.waiting, hframe.size, rfl, rfl⟩
    obtain ⟨m', next, hleads', hrest⟩ := h.tested (p := p) hlanded rfl
    have hall := hleads.trans hleads'
    rw [List.append_nil] at hall
    exact ⟨_, next, hall, hrest⟩
  have hrefused : ∀ {n reports fault}, fault.typeId ≠ config.typeId →
      Closes p inner n reports (.unwinding fault) → ∃ m next, Leads p frame m reports next ∧
        next.Stands f (if fault.typeId < 0 then sites.unexpected else sites.cleanup) 0 ∧
        next.value? ⟨first⟩ = some (.fault fault) := by
    intro n reports fault hne hinner
    obtain ⟨m, next, hleads, hnext, hpad, hselector⟩ := hlands hinner
    rw [if_neg hne] at hnext
    obtain ⟨m', next', hleads', hrest⟩ := h.refused (p := p) hnext hpad hselector
    have hall := hleads.trans hleads'
    rw [List.append_nil] at hall
    exact ⟨_, next', hall, hrest⟩
  constructor
  case returned =>
    intro n reports content hinner
    have hexists : v.index < frame.values.size := hframe.size.symm ▸ h.exists'
    exact ⟨Frame.value?_assign _ _ hexists,
      hframe.goesOn hclosed h.call (h.plain .normal) hg hcontents henter hinner⟩
  case ours =>
    intro n reports code hinner
    obtain ⟨m, next, hleads, hnext, hpad, -⟩ := hlands hinner
    rw [if_pos rfl] at hnext
    obtain ⟨m', hcloses⟩ := h.reports (p := p) hnext hpad
    rw [hframe.function]
    exact ⟨_, hleads.closes hcloses⟩
  case foreign =>
    intro n reports code typeId hne hneg hinner
    obtain ⟨m, next, hleads, hnext, -⟩ := hrefused hne hinner
    rw [if_pos hneg] at hnext
    have hstops := hleads.stops (hnext.stops (p := p) h.unexpected (i := 0) rfl)
    rw [hframe.function]
    exact ⟨_, fun callers _ _ hfuel => hstops.remaining hframe.waiting callers hfuel⟩
  case other =>
    intro n reports code typeId hne hpos hinner
    obtain ⟨m, next, hleads, hnext, hpad⟩ := hrefused hne hinner
    rw [if_neg (Int64.not_lt.2 hpos)] at hnext
    obtain ⟨m', hcloses⟩ := hnext.unwinds (p := p) (.inr h.cleanupEnd) hpad
    have hall := hleads.closes hcloses
    rw [List.append_nil] at hall
    exact ⟨_, hall⟩

/-! ## Checked divisions -/

/-- A checked division behind the first `start` instructions of the block where the divisor is looked at. -/
structure DivisionAt (config : FaultConfig) (f : Function) (start : Nat) (lhs rhs quotient : Value)
    (sites : DivisionSites) (first : Nat) : Prop where
  check : f.Has sites.check start first [.intConst 0, .intCompare .equal rhs ⟨first⟩]
  checkEnd : f.Closed sites.check (start + 2) (.branch ⟨first + 1⟩ sites.zero sites.okay)
  plainZero : (f.block sites.zero).phis = []
  plainOkay : (f.block sites.okay).phis = []
  zero : f.Has sites.zero 0 (first + 2) [.faultAlloc config.code config.typeId]
  zeroEnd : f.Closed sites.zero 1 (.raise ⟨first + 2⟩)
  okay : f.Has sites.okay 0 (first + 3) [.intArith .div lhs rhs]
  quotient : quotient = ⟨first + 3⟩

/-- The quotient of two integers, where too large a one wraps around. -/
theorem ofInt_tdiv_toInt (l r : Int64) : Int64.ofInt (l.toInt.tdiv r.toInt) = l / r := by
  rw [← Int64.toInt_inj, Int64.toInt_ofInt, Int64.toInt_div]

/-- The only quotient that is too large is the smallest integer again. -/
example : Int64.ofInt (Int64.minValue.toInt.tdiv (-1 : Int64).toInt) = Int64.minValue := by decide

/-- What becomes of a checked division of what `lhs` and `rhs` hold in `frame`. -/
structure Divides (config : FaultConfig) (p : Program) (okay : Block) (lhs rhs quotient : Value)
    (frame : Frame) : Prop where
  byZero : ∀ {l}, frame.value? lhs = some (.int l) → frame.value? rhs = some (.int 0) →
    ∃ m, Closes p frame m [] (.unwinding ⟨config.code, config.typeId⟩)
  byOther : ∀ {l r}, frame.value? lhs = some (.int l) → frame.value? rhs = some (.int r) → r ≠ 0 →
    ∃ m after, Leads p frame m [] after ∧ after.Stands frame.function okay 1 ∧
      after.value? quotient = some (.int (Int64.ofInt (l.toInt.tdiv r.toInt)))

/-- By 0 a fault is raised and nothing is divided. By another number control goes on behind the quotient. -/
theorem DivisionAt.divides {start : Nat} {lhs rhs quotient : Value} {sites : DivisionSites}
    (h : DivisionAt config f start lhs rhs quotient sites first) (hlhs : lhs.index < first)
    (hrhs : rhs.index < first) (hframe : frame.Stands f sites.check start) :
    Divides config p sites.okay lhs rhs quotient frame := by
  have hne : ∀ {u : Value} {i}, u.index < first → u ≠ ⟨first + i⟩ := by
    rintro u i hu rfl
    exact absurd hu (by simp)
  -- The divisor is compared with 0 in either case.
  have hcheck : ∀ {r}, frame.value? rhs = some (.int r) → ∃ n next, Leads p frame n [] next ∧
      next.Stands f (if r = 0 then sites.zero else sites.okay) 0 ∧
        ∀ u : Value, u.index < first → next.value? u = frame.value? u := by
    intro r hr
    obtain ⟨n₁, frame₁, hleads₁, hframe₁, hvalue₁⟩ :=
      hframe.executes (p := p) h.check (i := 0) rfl (.intConst 0)
    have hr₁ : frame₁.value? rhs = some (.int r) := by rw [hvalue₁, if_neg (hne hrhs), hr]
    have hzero : frame₁.value? ⟨first⟩ = some (.int 0) := by simp [hvalue₁]
    obtain ⟨n₂, frame₂, hleads₂, hframe₂, hvalue₂⟩ :=
      hframe₁.executes (p := p) h.check (i := 1) rfl (.intCompare hr₁ hzero)
    have hisZero : frame₂.value? ⟨first + 1⟩ = some (.bool (r == 0)) := by simp [hvalue₂, intCompare]
    obtain ⟨n₃, hleads₃⟩ := hframe₂.branches (p := p) h.checkEnd hisZero (by
      split
      · exact h.plainZero
      · exact h.plainOkay)
    refine ⟨_, _, hleads₁.trans (hleads₂.trans hleads₃), ?_, fun u hu => ?_⟩
    · simpa using hframe₂.moved (if r = 0 then sites.zero else sites.okay)
    · show frame₂.value? u = _
      rw [hvalue₂, if_neg (hne hu), hvalue₁, if_neg (hne hu)]
  constructor
  case byZero =>
    intro l _ hr
    obtain ⟨n, next, hleads, hnext, -⟩ := hcheck hr
    rw [if_pos rfl] at hnext
    obtain ⟨n₁, frame₁, hleads₁, hframe₁, hvalue₁⟩ :=
      hnext.executes (p := p) h.zero (i := 0) rfl (.faultAlloc config.code config.typeId)
    have hfault : frame₁.value? ⟨first + 2⟩ = some (.fault ⟨config.code, config.typeId⟩) := by simp [hvalue₁]
    obtain ⟨n₂, hcloses⟩ := hframe₁.unwinds (p := p) (.inl h.zeroEnd) hfault
    exact ⟨_, hleads.closes (hleads₁.closes hcloses)⟩
  case byOther =>
    intro l r hl hr hr0
    obtain ⟨n, next, hleads, hnext, hkept⟩ := hcheck hr
    rw [if_neg hr0] at hnext
    have hl' : next.value? lhs = some (.int l) := by rw [hkept _ hlhs, hl]
    have hr' : next.value? rhs = some (.int r) := by rw [hkept _ hrhs, hr]
    obtain ⟨n₁, frame₁, hleads₁, hframe₁, hvalue₁⟩ :=
      hnext.executes (p := p) h.okay (i := 0) rfl (.intArith hl' hr' fun _ => hr0)
    rw [hframe.function]
    refine ⟨_, frame₁, hleads.trans hleads₁, hframe₁, ?_⟩
    rw [h.quotient, hvalue₁, ofInt_tdiv_toInt]
    simp [intArith]

end Abacus.Lowering
