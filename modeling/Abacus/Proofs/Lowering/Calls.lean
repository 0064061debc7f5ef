import Abacus.Proofs.Lowering.Values

/-!
# How calls with a handler are made

The plans that the lowering of a call goes through when the function called may raise a fault. The
blocks of the handler are finished one by one; what goes on is the block in which the call has
returned.

* `Plan.Landed`, `Plan.Caught`, `Plan.Refused` — the parts of the handler;
* `Plan.Invoked` — the call with its handler;
* `Invoked.gives` — the result can be used from then on.
-/

namespace Abacus.Lowering

open Abacus.Flow (Value Block Ty Inst Terminator Builder)

namespace Plan

/-- A block that waited has been gone through, and its end has two targets, which are sealed. -/
structure Turned (σ σ' : Plan) (c : Block) (s : List Block) (first second : Block) : Prop where
  sound : σ'.Sound
  extends' : Extends (σ.enter c s) σ'
  atFirst : σ'.Awaits first true [c]
  atSecond : σ'.Awaits second true [c]
  spine : σ'.spine c = c :: s
  others : ∀ {d closed sources}, d ≠ c → d ≠ first → d ≠ second → σ.Awaits d closed sources →
    σ'.Awaits d closed sources
  since : ∀ {τ live live'}, Since τ σ live → τ.Own c → τ.Own first → τ.Own second →
    (∀ b ∈ live, b = c ∨ b ∈ live') → Since τ σ' live'

/-- What waits goes on waiting while another block is entered and gone on in. -/
theorem Awaits.kept {σ σ₁ : Plan} {c d : Block} {closed : Bool} {s sources : List Block} {v : Value}
    (h : σ.Awaits d closed sources) (hd : d ≠ c) (henter : (σ.enter c s).Ready)
    (hgives : Gives (σ.enter c s) σ₁ v) : σ₁.Awaits d closed sources :=
  (h.enter hd s).since henter.sound hgives.advance.since

/-- A block that is sealed is another one than a block that is not. -/
theorem Awaits.ne_sealed {σ : Plan} {c d : Block} {sources sources' : List Block}
    (h : σ.Awaits d false sources) (hc : σ.Awaits c true sources') : d ≠ c := by
  rintro rfl
  have := h.isSealed.symm.trans hc.isSealed
  cases this

/-- A block is entered, gone on in, and branches to two blocks that wait. -/
theorem Sound.turn {σ σ₁ σ₂ : Plan} {c first second : Block} {s sources : List Block} {v : Value}
    (hσ : σ.Sound) (hc : σ.Awaits c true sources) (henter : (σ.enter c s).Ready)
    (hgives : Gives (σ.enter c s) σ₁ v) (hcurrent : σ₁.current = c) (hne : first ≠ second)
    (hfirst : σ.Awaits first false []) (hsecond : σ.Awaits second false [])
    (fork : SealsBoth (σ₁.terminate (.branch v first second)) first second σ₂) :
    Turned σ σ₂ c s first second ∧ Extends σ₁ σ₂ ∧
      σ₂.Ends c (σ₁.record.script c) (.branch v first second) := by
  have hbranch := hgives.ready.branch hgives.has hne
    (hfirst.kept (hfirst.ne_sealed hc) henter hgives)
    (hsecond.kept (hsecond.ne_sealed hc) henter hgives) fork
  have e : Extends (σ.enter c s) σ₂ := hgives.advance.since.extends'.trans hbranch.extends'
  have hended := hbranch.ended
  rw [hcurrent] at hended
  refine ⟨?_, hbranch.extends', hended⟩
  constructor
  case sound => exact hbranch.sound
  case extends' => exact e
  case atFirst => exact hcurrent ▸ hbranch.atFirst
  case atSecond => exact hcurrent ▸ hbranch.atSecond
  case spine =>
    have hspine := spine_enter σ c s
    have hkeep := e.spine henter.sound.used
    rw [hspine] at hkeep
    exact hkeep
  case others =>
    intro d closed sources hdc hd₁ hd₂ h
    exact (h.kept hdc henter hgives).spared hbranch.extends' (hbranch.spares d (hcurrent ▸ hdc) hd₁ hd₂)
  case since =>
    intro τ live live' hs hown hown₁ hown₂ hlive
    have hs₁ : Since τ σ₁ (σ₁.current :: live') := by
      refine (hs.enter hσ hc.spine hown s).trans hown hgives.advance.since ?_ ?_
      · intro b hb hne
        exact List.mem_cons_of_mem _ ((hlive b hb).resolve_left hne)
      · intro b hb
        rw [List.mem_singleton.1 hb]
        exact List.mem_cons_self
    exact hbranch.since hs₁ (hcurrent ▸ hown) hown₁ hown₂ fun b hb => List.mem_cons.1 hb

end Plan

/-! ## The handler -/

namespace Plan

/-- The landing block tells whether the fault is of this program. -/
inductive Landed (config : FaultConfig) (σ : Plan) (sites : InvokeSites) (s : List Block) :
    Value → Value → Plan → Prop
  | intro {σ₁ σ₂ σ₃ σ₄ σ' : Plan}
      (pad : σ₁ = (σ.enter sites.landing s).emit .landingPad .fault)
      (selector : σ₂ = σ₁.emit (.faultSelector σ.next) .int)
      (typeId : σ₃ = σ₂.emit (.faultTypeId config.typeId) .int)
      (compare : σ₄ = σ₃.emit (.intCompare .equal σ₁.next σ₂.next) .bool)
      (fork : SealsBoth (σ₄.terminate (.branch σ₃.next sites.caught sites.faulted)) sites.caught
        sites.faulted σ') : Landed config σ sites s σ.next σ₁.next σ'

/-- The handler reports the fault and gives back 0. -/
inductive Caught (σ : Plan) (sites : InvokeSites) (s : List Block) (pad : Value) : Plan → Prop
  | intro {σ₁ σ₂ σ₃ σ₄ : Plan}
      (code : σ₁ = (σ.enter sites.caught s).emit (.beginCatch pad) .int)
      (report : σ₂ = σ₁.emit (.reportFault σ.next) .unit)
      (done : σ₃ = σ₂.emit .endCatch .unit)
      (zero : σ₄ = σ₃.emit (.intConst 0) .int) : Caught σ sites s pad (σ₄.terminate (.ret σ₃.next))

/-- A fault of another type stops the program or is passed on. -/
inductive Refused (σ : Plan) (sites : InvokeSites) (s : List Block) (pad selector : Value) :
    Plan → Prop
  | intro {σ₁ σ₂ σ₃ σ₄ : Plan}
      (zero : σ₁ = (σ.enter sites.faulted s).emit (.intConst 0) .int)
      (compare : σ₂ = σ₁.emit (.intCompare .less selector σ.next) .bool)
      (fork : SealsBoth (σ₂.terminate (.branch σ₁.next sites.unexpected sites.cleanup))
        sites.unexpected sites.cleanup σ₃)
      (stop : σ₄ = ((σ₃.enter sites.unexpected (sites.faulted :: s)).emit (.callUnexpected pad)
        .unit).terminate .unreachable) :
      Refused σ sites s pad selector
        ((σ₄.enter sites.cleanup (sites.faulted :: s)).terminate (.resume pad))

/-- The blocks of a call that may fault, made next. -/
def sitesOf (σ : Plan) : InvokeSites :=
  ⟨σ.block 0, σ.block 1, σ.block 2, σ.block 3, σ.block 4, σ.block 5⟩

/-- The labels of these blocks. -/
def siteLabels : List String :=
  [FaultState.normal.label, FaultState.checking.label, FaultState.caught.label,
    FaultState.faulted.label, FaultState.unexpected.label, FaultState.cleanup.label]

/-- A call with its handler; the block in which the call has returned is gone on in. -/
inductive Invoked (config : FaultConfig) (σ : Plan) (callee : String) (arguments : List Value) :
    Value → Plan → Prop
  | intro {σ₁ σ₂ σ₃ σ₄ : Plan} {pad selector : Value}
      (fork : SealsBoth ((σ.newBlocks siteLabels).invoke callee arguments .int (σ.block 0)
        (σ.block 1)) (σ.block 0) (σ.block 1) σ₁)
      (landed : Landed config σ₁ σ.sitesOf (σ.spine σ.current) pad selector σ₂)
      (caught : Caught σ₂ σ.sitesOf (σ.block 1 :: σ.spine σ.current) pad σ₃)
      (refused : Refused σ₃ σ.sitesOf (σ.block 1 :: σ.spine σ.current) pad selector σ₄) :
      Invoked config σ callee arguments σ.next (σ₄.enter (σ.block 0) (σ.spine σ.current))

/-- What a block has can be used behind it. -/
theorem Has.behind {σ : Plan} {q c : Block} {s : List Block} {v : Value} (hv : σ.Has q v)
    (hs : s = σ.spine q) : (σ.enter c s).Has c v := by
  obtain ⟨hmem, hlisted⟩ := hv
  refine ⟨?_, hlisted⟩
  rw [show (σ.enter c s).spine c = _ from spine_enter σ c s, hs]
  exact List.mem_cons_of_mem _ hmem

/-- Where the parts of a landing block stand. -/
structure LandingAt (config : FaultConfig) (σ : Plan) (sites : InvokeSites)
    (pad selector typeId isOurs : Value) : Prop where
  pads : σ.Places sites.landing [] pad .landingPad .fault
  selects : σ.Places sites.landing [.inst pad] selector (.faultSelector pad) .int
  types : σ.Places sites.landing [.inst pad, .inst selector] typeId (.faultTypeId config.typeId) .int
  compares : σ.Places sites.landing [.inst pad, .inst selector, .inst typeId] isOurs
    (.intCompare .equal selector typeId) .bool
  branches : σ.Ends sites.landing [.inst pad, .inst selector, .inst typeId, .inst isOurs]
    (.branch isOurs sites.caught sites.faulted)
  toCaught : σ.OneWay sites.caught sites.landing
  toFaulted : σ.OneWay sites.faulted sites.landing
  apart : sites.caught ≠ sites.faulted

/-- The landing block compares the type of the fault with that of the program. -/
theorem Ready.testFault {config : FaultConfig} {σ σ₁ σ₂ σ₃ σ₄ : Plan} {sites : InvokeSites}
    {s : List Block} {sources : List Block} (hσ : σ.Sound)
    (hlanding : σ.Awaits sites.landing true sources) (henter : (σ.enter sites.landing s).Ready)
    (pad : σ₁ = (σ.enter sites.landing s).emit .landingPad .fault)
    (selector : σ₂ = σ₁.emit (.faultSelector σ.next) .int)
    (typeId : σ₃ = σ₂.emit (.faultTypeId config.typeId) .int)
    (compare : σ₄ = σ₃.emit (.intCompare .equal σ₁.next σ₂.next) .bool) :
    Emits (σ.enter sites.landing s) σ₁ sites.landing [] σ.next .landingPad .fault ∧
      Emits σ₁ σ₂ sites.landing [.inst σ.next] σ₁.next (.faultSelector σ.next) .int ∧
      Emits σ₂ σ₃ sites.landing [.inst σ.next, .inst σ₁.next] σ₂.next (.faultTypeId config.typeId)
        .int ∧
      Emits σ₃ σ₄ sites.landing [.inst σ.next, .inst σ₁.next, .inst σ₂.next] σ₃.next
        (.intCompare .equal σ₁.next σ₂.next) .bool := by
  have h₁ := (hlanding.stands hσ henter).emit pad (by simp [Inst.operands])
  have h₂ := h₁.stands.emit selector fun u hu => List.mem_singleton.1 hu ▸ h₁.gives.has
  have h₃ := h₂.stands.emit typeId (by simp [Inst.operands])
  refine ⟨h₁, h₂, h₃, h₃.stands.emit compare fun u hu => ?_⟩
  rcases List.mem_pair.1 hu with rfl | rfl
  · exact h₃.gives.keeps h₂.gives.ready h₂.gives.has
  · exact h₃.gives.has

/-- After the landing block the fault and its type can be used, and its parts stay where they
are once it has been left. -/
theorem Landed.turned {config : FaultConfig} {σ σ' : Plan} {sites : InvokeSites}
    {s sources : List Block} {pad selector : Value}
    (h : Landed config σ sites s pad selector σ') (hσ : σ.Sound)
    (hlanding : σ.Awaits sites.landing true sources) (henter : (σ.enter sites.landing s).Ready)
    (hne : sites.caught ≠ sites.faulted) (hcaught : σ.Awaits sites.caught false [])
    (hfaulted : σ.Awaits sites.faulted false []) :
    Turned σ σ' sites.landing s sites.caught sites.faulted ∧ σ'.Has sites.landing pad ∧
      σ'.Has sites.landing selector ∧ ∀ {ω s'}, Extends (σ'.enter sites.caught s') ω →
        ∃ typeId isOurs, LandingAt config ω sites pad selector typeId isOurs := by
  obtain @⟨σ₁, σ₂, σ₃, σ₄, _, hpad, hselector, htypeId, hcompare, fork⟩ := h
  obtain ⟨h₁, h₂, h₃, h₄⟩ := Ready.testFault hσ hlanding henter hpad hselector htypeId hcompare
  have hrest := h₃.gives.trans h₄.gives
  have hall := h₁.gives.trans (h₂.gives.trans hrest)
  obtain ⟨hturned, e, hended⟩ :=
    hσ.turn hlanding henter hall h₄.stands.current hne hcaught hfaulted fork
  have hkeeps : ∀ {w}, σ₂.Has σ₂.current w → σ'.Has sites.landing w := fun hw =>
    h₄.stands.current ▸ (hrest.keeps h₂.gives.ready hw).mono h₄.gives.ready.sound e
  refine ⟨hturned, hkeeps (h₂.gives.keeps h₁.gives.ready h₁.gives.has), hkeeps h₂.gives.has, ?_⟩
  intro ω s' e'
  have eleft := (extends_enter hturned.sound hturned.atFirst.spine s').trans e'
  have e₄ := e.trans eleft
  have e₃ := h₄.gives.advance.since.extends'.trans e₄
  have e₂ := h₃.gives.advance.since.extends'.trans e₃
  refine ⟨σ₂.next, σ₃.next, h₁.places.mono (h₂.gives.advance.since.extends'.trans e₂),
    h₂.places.mono e₂, h₃.places.mono e₃, h₄.places.mono e₄, ?_, hturned.atFirst.oneWay.mono eleft,
    hturned.atSecond.oneWay.mono eleft, hne⟩
  rw [h₄.stands.script] at hended
  exact hended.left (hcaught.ne_sealed hlanding).symm e'

/-- Where the parts of a handler stand. -/
structure CaughtAt (σ : Plan) (b : Block) (pad code reported done zero : Value) : Prop where
  catches : σ.Places b [] code (.beginCatch pad) .int
  reports : σ.Places b [.inst code] reported (.reportFault code) .unit
  finishes : σ.Places b [.inst code, .inst reported] done .endCatch .unit
  constant : σ.Places b [.inst code, .inst reported, .inst done] zero (.intConst 0) .int
  returns : σ.Ends b [.inst code, .inst reported, .inst done, .inst zero] (.ret zero)

/-- The block that reports the fault is finished, and its parts stay where they are once it has
been left. -/
theorem Caught.closed {σ σ' : Plan} {sites : InvokeSites} {s sources : List Block} {pad : Value}
    (h : Caught σ sites s pad σ') (hσ : σ.Sound) (hcaught : σ.Awaits sites.caught true sources)
    (henter : (σ.enter sites.caught s).Ready) (hpad : (σ.enter sites.caught s).Has sites.caught pad) :
    σ'.Sound ∧ Since (σ.enter sites.caught s) σ' [] ∧
      ∀ {ω d s'}, sites.caught ≠ d → Extends σ' (σ'.enter d s') → Extends (σ'.enter d s') ω →
        ∃ code reported done zero, CaughtAt ω sites.caught pad code reported done zero := by
  obtain @⟨σ₁, σ₂, σ₃, σ₄, hcode, hreport, hdone, hzero⟩ := h
  have h₁ := (hcaught.stands hσ henter).emit hcode fun u hu => List.mem_singleton.1 hu ▸ hpad
  have h₂ := h₁.stands.emit hreport fun u hu => List.mem_singleton.1 hu ▸ h₁.gives.has
  have h₃ := h₂.stands.emit hdone (by simp [Inst.operands])
  have h₄ := h₃.stands.emit hzero (by simp [Inst.operands])
  obtain ⟨hsound, hclose⟩ := h₄.gives.ready.close (t := .ret σ₃.next) rfl rfl fun u hu =>
    List.mem_singleton.1 hu ▸ h₄.gives.has
  have hadvance := (h₁.gives.trans (h₂.gives.trans (h₃.gives.trans h₄.gives))).advance
  refine ⟨hsound, hadvance.finish hclose, fun {ω d s'} hne eleft e => ?_⟩
  have e₄ := hclose.extends'.trans (eleft.trans e)
  have e₃ := h₄.gives.advance.since.extends'.trans e₄
  have e₂ := h₃.gives.advance.since.extends'.trans e₃
  have e₁ := h₂.gives.advance.since.extends'.trans e₂
  exact ⟨σ.next, σ₁.next, σ₂.next, σ₃.next, h₁.places.mono e₁, h₂.places.mono e₂,
    h₃.places.mono e₃, h₄.places.mono e₄, (h₄.stands.ends (.ret σ₃.next)).left hne e⟩

/-- What holds when blocks have been finished that stood apart. -/
structure Finished (σ σ' : Plan) (blocks : List Block) : Prop where
  sound : σ'.Sound
  extends' : Extends σ σ'
  others : ∀ {d closed sources}, d ∉ blocks → σ.Awaits d closed sources →
    σ'.Awaits d closed sources
  since : ∀ {τ live live'}, Since τ σ live → (∀ b ∈ blocks, τ.Own b) →
    (∀ b ∈ live, b ∈ blocks ∨ b ∈ live') → Since τ σ' live'

/-- A block is entered and ends. -/
theorem Since.finished {σ σ' : Plan} {c : Block} {s sources : List Block} (hσ : σ.Sound)
    (hc : σ.Awaits c true sources) (henter : (σ.enter c s).Ready) (hsound : σ'.Sound)
    (h : Since (σ.enter c s) σ' []) : Finished σ σ' [c] where
  sound := hsound
  extends' := (extends_enter hσ hc.spine s).trans h.extends'
  others hd hwaits := (hwaits.enter (fun he => hd (by simp [he])) s).since henter.sound h
  since hs hown hlive := hs.finish hσ hc.spine (hown c (by simp)) h fun b hb =>
    (hlive b hb).imp_left List.mem_singleton.1

theorem Refused.finished {σ σ' : Plan} {sites : InvokeSites} {s : List Block} {q : Block}
    {pad selector : Value} (h : Refused σ sites s pad selector σ') (hσ : σ.Sound)
    (hfaulted : σ.Awaits sites.faulted true [q]) (hs : s = σ.spine q)
    (hpad : σ.Has q pad) (hselector : σ.Has q selector)
    (hne : sites.unexpected ≠ sites.cleanup) (hunexpected : σ.Awaits sites.unexpected false [])
    (hcleanup : σ.Awaits sites.cleanup false []) : Extends (σ.enter sites.faulted s) σ' ∧
      Finished σ σ' [sites.faulted, sites.unexpected, sites.cleanup] ∧
      σ'.OneWay sites.unexpected sites.faulted ∧ σ'.OneWay sites.cleanup sites.faulted := by
  obtain @⟨σ₁, σ₂, σ₃, σ₄, hzero, hcompare, fork, hstop⟩ := h
  obtain ⟨henter, -⟩ := hσ.enterBehind hfaulted hs
  have h₂ : Gives (σ.enter sites.faulted s) σ₂ σ₁.next := by
    rw [hcompare, hzero]
    exact gives_withConst henter (hselector.behind hs) rfl (.inl rfl)
  have hcurrent : σ₂.current = sites.faulted := by
    rw [hcompare, hzero]
    rfl
  obtain ⟨hturned, e₂, -⟩ :=
    hσ.turn hfaulted henter h₂ hcurrent hne hunexpected hcleanup fork
  have hpad₃ : σ₃.Has sites.faulted pad :=
    hcurrent ▸ (h₂.keeps henter (hpad.behind hs)).mono h₂.ready.sound e₂
  -- The block that stops the program.
  obtain ⟨hready₄, -⟩ := hturned.sound.enterBehind hturned.atFirst hturned.spine.symm
  have hcall : Gives _ _ _ := gives_emit hready₄ (.callUnexpected pad) .unit fun u hu =>
    List.mem_singleton.1 hu ▸ hpad₃.behind hturned.spine.symm
  obtain ⟨hsound₄, hclose₄⟩ := hcall.ready.close (t := .unreachable) rfl rfl (by simp [endOperands])
  rw [← hstop] at hsound₄ hclose₄
  have hfinish₄ := Since.finished hturned.sound hturned.atFirst hready₄ hsound₄
    (hcall.advance.finish hclose₄)
  -- The block that passes the fault on.
  have hcleanup₄ := hfinish₄.others (by simpa using Ne.symm hne) hturned.atSecond
  have hspine₄ : sites.faulted :: s = σ₄.spine sites.faulted := by
    have hused : σ₃.spine sites.faulted ≠ [] := by simp [hturned.spine]
    rw [hfinish₄.extends'.spine hused, hturned.spine]
  obtain ⟨hready₅, -⟩ := hfinish₄.sound.enterBehind hcleanup₄ hspine₄
  have hpad₅ := (hpad₃.mono hturned.sound hfinish₄.extends').behind (c := sites.cleanup) hspine₄
  obtain ⟨hsound₅, hclose₅⟩ := hready₅.close (t := .resume pad) rfl rfl fun u hu =>
    List.mem_singleton.1 hu ▸ hpad₅
  have hfinish₅ := Since.finished hfinish₄.sound hcleanup₄ hready₅ hsound₅ hclose₅
  have e := hturned.extends'.trans (hfinish₄.extends'.trans hfinish₅.extends')
  refine ⟨e, ?_, hturned.atFirst.oneWay.mono (hfinish₄.extends'.trans hfinish₅.extends'),
    hcleanup₄.oneWay.mono hfinish₅.extends'⟩
  constructor
  case sound => exact hsound₅
  case extends' => exact (extends_enter hσ hfaulted.spine s).trans e
  case others =>
    intro d closed sources hd hwaits
    simp only [List.mem_cons, List.not_mem_nil, or_false, not_or] at hd
    have hwaits₃ := hturned.others hd.1 hd.2.1 hd.2.2 hwaits
    exact hfinish₅.others (by simpa using hd.2.2) (hfinish₄.others (by simpa using hd.2.1) hwaits₃)
  case since =>
    intro τ live live' h hown hlive
    have h₃ : Since τ σ₃ (sites.unexpected :: sites.cleanup :: live') :=
      hturned.since h (hown _ (by simp)) (hown _ (by simp)) (hown _ (by simp)) (by grind)
    have h₄ : Since τ σ₄ (sites.cleanup :: live') := hfinish₄.since h₃ (by grind) (by grind)
    exact hfinish₅.since h₄ (by grind) (by grind)

/-- What holds of the blocks of a call with a handler once the block that reports the fault has been
finished: the others wait, and what the landing block has given can be used behind it. -/
structure Reported (σ σ' : Plan) (pad selector : Value) : Prop where
  atNormal : σ'.Awaits σ.sitesOf.normal true [σ.current]
  atFaulted : σ'.Awaits σ.sitesOf.faulted true [σ.sitesOf.landing]
  atUnexpected : σ'.Awaits σ.sitesOf.unexpected false []
  atCleanup : σ'.Awaits σ.sitesOf.cleanup false []
  spine : σ.sitesOf.landing :: σ.spine σ.current = σ'.spine σ.sitesOf.landing
  pad : σ'.Has σ.sitesOf.landing pad
  selector : σ'.Has σ.sitesOf.landing selector

/-- The block that reports the fault is finished after the landing block. -/
theorem Turned.reported {σ σ₁ σ₂ σ₃ : Plan} {done : List Event} {t : Terminator}
    {pad selector : Value} (h : Turned σ₁ σ₂ σ.sitesOf.landing (σ.spine σ.current)
      σ.sitesOf.caught σ.sitesOf.faulted) (hparted : Parted σ σ₁ done t 6 0 1)
    (hfinish : Finished σ₂ σ₃ [σ.sitesOf.caught]) (hpad : σ₂.Has σ.sitesOf.landing pad)
    (hselector : σ₂.Has σ.sitesOf.landing selector) : Reported σ σ₃ pad selector := by
  have hother : ∀ {i j}, i ≠ j → σ.block i ≠ σ.block j := fun h => block_inj.not.2 h
  -- Neither of the two blocks is one of those that wait.
  have hwaits : ∀ {i closed sources}, i ≠ 1 → i ≠ 2 → i ≠ 3 →
      σ₁.Awaits (σ.block i) closed sources → σ₃.Awaits (σ.block i) closed sources := by
    intro i closed sources h1 h2 h3 hi
    exact hfinish.others (by simpa [sitesOf] using hother h2)
      (h.others (hother h1) (hother h2) (hother h3) hi)
  constructor
  case atNormal => exact hwaits (by decide) (by decide) (by decide) hparted.atFirst
  case atFaulted => exact hfinish.others (by simpa [sitesOf] using hother (by decide)) h.atSecond
  case atUnexpected =>
    exact hwaits (by decide) (by decide) (by decide)
      (hparted.others (by decide) (by decide) (by decide))
  case atCleanup =>
    exact hwaits (by decide) (by decide) (by decide)
      (hparted.others (by decide) (by decide) (by decide))
  case spine =>
    have hused : σ₂.spine σ.sitesOf.landing ≠ [] := by simp [h.spine]
    rw [hfinish.extends'.spine hused, h.spine]
  case pad => exact hpad.mono h.sound hfinish.extends'
  case selector => exact hselector.mono h.sound hfinish.extends'

/-- Where the parts of a call with a handler stand. Behind `done` in `b` the function is called; the
call returns to the block `normal`. -/
structure InvokedAt (config : FaultConfig) (σ : Plan) (b : Block) (done : List Event)
    (callee : String) (arguments : List Value) (v pad selector typeId isOurs code reported finished
      zero : Value) (sites : InvokeSites) : Prop where
  info : σ.builder.valueInfo v = ⟨.int, .call callee arguments, b⟩
  lt : v.index < σ.builder.valueCount
  calls : σ.Ends b (done ++ [.inst v]) (.invoke v sites.normal sites.landing)
  toNormal : σ.OneWay sites.normal b
  toLanding : σ.OneWay sites.landing b
  toUnexpected : σ.OneWay sites.unexpected sites.faulted
  toCleanup : σ.OneWay sites.cleanup sites.faulted
  landing : LandingAt config σ sites pad selector typeId isOurs
  caught : CaughtAt σ sites.caught pad code reported finished zero

/-- A call with a handler is gone through in order, and its parts stand where they belong in all
plans that extend the last one. The result can be used in the block in which the call has
returned. -/
theorem Invoked.stages {config : FaultConfig} {σ σ' : Plan} {callee : String}
    {arguments : List Value} {v : Value} (h : Invoked config σ callee arguments v σ') (hσ : σ.Ready)
    (harguments : ∀ u ∈ arguments, σ.Has σ.current u) : Gives σ σ' v ∧
      σ'.record.script σ'.current = [] ∧ σ'.current = σ.sitesOf.normal ∧
      ∀ {ω}, Extends σ' ω → ∃ pad selector typeId isOurs code reported finished zero,
        InvokedAt config ω σ.current (σ.record.script σ.current) callee arguments v pad selector
          typeId isOurs code reported finished zero σ.sitesOf := by
  obtain @⟨σ₁, σ₂, σ₃, σ₄, pad, selector, fork, landed, caught, refused⟩ := h
  have hopened : Opened σ _ 6 := hσ.newBlocks siteLabels
  obtain ⟨hparted, hresult, einvoke⟩ :=
    hopened.invoke hσ harguments (by decide) (by decide) (by decide) fork
  have hother : ∀ {i j}, i ≠ j → σ.block i ≠ σ.block j := fun h => block_inj.not.2 h
  -- The landing block.
  obtain ⟨hready₁, elanding⟩ := hparted.sound.enterBehind hparted.atSecond hparted.spine.symm
  obtain ⟨hturned, hpad, hselector, hlanding⟩ := landed.turned hparted.sound hparted.atSecond hready₁
    (hother (by decide)) (hparted.others (by decide) (by decide) (by decide))
    (hparted.others (by decide) (by decide) (by decide))
  have hspine₂ : σ.block 1 :: σ.spine σ.current = σ₂.spine (σ.block 1) := hturned.spine.symm
  -- The block that reports the fault.
  obtain ⟨hready₂, -⟩ := hturned.sound.enterBehind hturned.atFirst hspine₂
  obtain ⟨hsound₃, hclose₃, hcaught⟩ :=
    caught.closed hturned.sound hturned.atFirst hready₂ (hpad.behind hspine₂)
  have hfinish₃ := Since.finished hturned.sound hturned.atFirst hready₂ hsound₃ hclose₃
  have hreported := hturned.reported hparted hfinish₃ hpad hselector
  -- The blocks for faults of other types.
  obtain ⟨e₃, hfinish₄, hunexpected, hcleanup⟩ := refused.finished hfinish₃.sound hreported.atFaulted
    hreported.spine hreported.pad hreported.selector (hother (by decide)) hreported.atUnexpected
    hreported.atCleanup
  -- The block in which the call has returned.
  have hnormal := hfinish₄.others (by simp [sitesOf, block_inj]) hreported.atNormal
  have hsince₂ : Since σ σ₂ [σ.block 0, σ.block 2, σ.block 3, σ.block 4, σ.block 5] :=
    hturned.since hparted.since (own_block σ 1) (own_block σ 2) (own_block σ 3)
      (by simp [List.range_succ, sitesOf])
  have hsince₃ : Since σ σ₃ [σ.block 0, σ.block 3, σ.block 4, σ.block 5] :=
    hfinish₃.since hsince₂ (by simp [sitesOf, own_block]) (by simp [sitesOf])
  have hsince₄ : Since σ σ₄ [σ.block 0] :=
    hfinish₄.since hsince₃ (by simp [sitesOf, own_block]) (by simp [sitesOf])
  have hspine₄ := (hsince₄.extends'.spine hσ.sound.used).symm
  obtain ⟨hready, eleave⟩ := hfinish₄.sound.enterBehind hnormal hspine₄
  have e₁ : Extends (σ₁.enter (σ.block 1) (σ.spine σ.current)) σ₄ :=
    hturned.extends'.trans (hfinish₃.extends'.trans hfinish₄.extends')
  refine ⟨⟨hready, hsince₄.last hfinish₄.sound hnormal.spine (own_block σ 0) fun a => id,
    (hresult.mono hparted.sound (elanding.trans e₁)).behind hspine₄⟩,
    hnormal.script_enter hfinish₄.sound _, rfl, fun {ω} e => ?_⟩
  have eω := eleave.trans e
  have efaulted := extends_enter hfinish₃.sound hreported.atFaulted.spine
    (σ.block 1 :: σ.spine σ.current)
  obtain ⟨typeId, isOurs, hlanding⟩ := hlanding (hclose₃.extends'.trans (efaulted.trans (e₃.trans eω)))
  obtain ⟨code, reported, finished, zero, hcaught⟩ :=
    hcaught (hother (i := 2) (j := 3) (by decide)) efaulted (e₃.trans eω)
  have hinfo := info_invoke_mono hopened.ready.sound (einvoke.trans (elanding.trans (e₁.trans eω)))
  rw [hopened.current, hopened.valueCount] at hinfo
  refine ⟨pad, selector, typeId, isOurs, code, reported, finished, zero, hinfo, ?_, ?_, ?_, ?_,
    hunexpected.mono eω, hcleanup.mono eω, hlanding, hcaught⟩
  · have hlt := (hparted.sound.lt_of_has hresult)
    exact Nat.lt_of_lt_of_le hlt (elanding.trans (e₁.trans eω)).valueCount
  · exact hparted.ended.left (hσ.sound.current_ne_block 1) (e₁.trans eω)
  · exact hparted.atFirst.oneWay.mono (elanding.trans (e₁.trans eω))
  · exact hparted.atSecond.oneWay.mono (elanding.trans (e₁.trans eω))

theorem Invoked.gives {config : FaultConfig} {σ σ' : Plan} {callee : String}
    {arguments : List Value} {v : Value} (h : Invoked config σ callee arguments v σ') (hσ : σ.Ready)
    (harguments : ∀ u ∈ arguments, σ.Has σ.current u) : Gives σ σ' v := (h.stages hσ harguments).1

end Plan

/-! ## The code -/

namespace Drafting

theorem leads_newInvokeSites (σ : Plan) : Leads newInvokeSites σ fun sites σ' =>
    sites = σ.sitesOf ∧ σ' = σ.newBlocks Plan.siteLabels := by
  apply Leads.bind (leads_newBlock _ _)
  rintro normal _ ⟨rfl, rfl⟩
  apply Leads.bind (leads_newBlock _ _)
  rintro landing _ ⟨rfl, rfl⟩
  apply Leads.bind (leads_newBlock _ _)
  rintro caught _ ⟨rfl, rfl⟩
  apply Leads.bind (leads_newBlock _ _)
  rintro faulted _ ⟨rfl, rfl⟩
  apply Leads.bind (leads_newBlock _ _)
  rintro unexpected _ ⟨rfl, rfl⟩
  apply Leads.bind (leads_newBlock _ _)
  rintro cleanup _ ⟨rfl, rfl⟩
  apply Leads.mono (leads_pure _ _)
  rintro _ _ ⟨rfl, rfl⟩
  refine ⟨?_, rfl⟩
  simp [Plan.sitesOf, Plan.block, Plan.blockCount_newBlock]

theorem leads_fillLanding (config : FaultConfig) (sites : InvokeSites) (σ : Plan)
    (s : List Block) : Leads (fillLanding config sites) σ fun r σ' =>
      Plan.Landed config σ sites s r.1 r.2 σ' := by
  apply Leads.bind (leads_setCurrent _ σ s)
  rintro ⟨⟩ _ rfl
  apply Leads.bind (leads_emit _ _ _)
  rintro pad σ₁ ⟨rfl, hpad⟩
  apply Leads.bind (leads_emit _ _ _)
  rintro selector σ₂ ⟨rfl, hselector⟩
  apply Leads.bind (leads_emit _ _ _)
  rintro typeId σ₃ ⟨rfl, htypeId⟩
  apply Leads.bind (leads_emit _ _ _)
  rintro isOurs σ₄ ⟨rfl, hcompare⟩
  apply Leads.bind (leads_terminate _ _)
  rintro ⟨⟩ _ rfl
  apply leads_sealBoth
  rintro σ₅ fork
  apply Leads.mono (leads_pure _ _)
  rintro _ _ ⟨rfl, rfl⟩
  exact .intro hpad hselector htypeId hcompare fork

theorem leads_fillCaught (sites : InvokeSites) (pad : Value) (σ : Plan) (s : List Block) :
    Leads (fillCaught sites pad) σ fun _ σ' => Plan.Caught σ sites s pad σ' := by
  apply Leads.bind (leads_setCurrent _ σ s)
  rintro ⟨⟩ _ rfl
  apply Leads.bind (leads_emit _ _ _)
  rintro code σ₁ ⟨rfl, hcode⟩
  apply Leads.bind (leads_emit _ _ _)
  rintro report σ₂ ⟨-, hreport⟩
  apply Leads.bind (leads_emit _ _ _)
  rintro done σ₃ ⟨-, hdone⟩
  apply Leads.bind (leads_emit _ _ _)
  rintro zero σ₄ ⟨rfl, hzero⟩
  apply Leads.mono (leads_terminate _ _)
  rintro ⟨⟩ _ rfl
  exact .intro hcode hreport hdone hzero

theorem leads_fillFaulted (sites : InvokeSites) (pad selector : Value) (σ : Plan)
    (s : List Block) : Leads (fillFaulted sites pad selector) σ fun _ σ' =>
      Plan.Refused σ sites s pad selector σ' := by
  apply Leads.bind (leads_setCurrent _ σ s)
  rintro ⟨⟩ _ rfl
  apply Leads.bind (leads_emit _ _ _)
  rintro zero σ₁ ⟨rfl, hzero⟩
  apply Leads.bind (leads_emit _ _ _)
  rintro isForeign σ₂ ⟨rfl, hcompare⟩
  apply Leads.bind (leads_terminate _ _)
  rintro ⟨⟩ _ rfl
  apply leads_sealBoth
  rintro σ₃ fork
  apply Leads.bind (leads_setCurrent _ σ₃ (sites.faulted :: s))
  rintro ⟨⟩ _ rfl
  apply Leads.bind (leads_emit _ _ _)
  rintro stopped _ ⟨-, rfl⟩
  apply Leads.bind (leads_terminate _ _)
  rintro ⟨⟩ σ₄ hstop
  apply Leads.bind (leads_setCurrent _ σ₄ (sites.faulted :: s))
  rintro ⟨⟩ _ rfl
  apply Leads.mono (leads_terminate _ _)
  rintro ⟨⟩ _ rfl
  exact .intro hzero hcompare fork hstop

theorem leads_invokeWith (config : FaultConfig) (callee : String) (arguments : List Value)
    (σ : Plan) : Leads (invoke config callee arguments) σ fun r σ' =>
      Plan.Invoked config σ callee arguments r.1 σ' := by
  apply Leads.bind (leads_newInvokeSites σ)
  rintro sites _ ⟨rfl, rfl⟩
  apply Leads.bind (leads_invoke callee arguments .int _ _ _)
  rintro result _ ⟨rfl, rfl⟩
  rw [Plan.valueCount_newBlocks]
  apply leads_sealBoth
  rintro σ₁ fork
  apply Leads.bind (leads_fillLanding config _ σ₁ (σ.spine σ.current))
  rintro ⟨pad, selector⟩ σ₂ landed
  apply Leads.bind (leads_fillCaught _ pad σ₂ (σ.block 1 :: σ.spine σ.current))
  rintro ⟨⟩ σ₃ caught
  apply Leads.bind (leads_fillFaulted _ pad selector σ₃ (σ.block 1 :: σ.spine σ.current))
  rintro ⟨⟩ σ₄ refused
  apply Leads.bind (leads_setCurrent _ σ₄ (σ.spine σ.current))
  rintro ⟨⟩ _ rfl
  apply Leads.mono (leads_pure _ _)
  rintro _ _ ⟨rfl, rfl⟩
  exact .intro fork landed caught refused

end Drafting

end Abacus.Lowering
