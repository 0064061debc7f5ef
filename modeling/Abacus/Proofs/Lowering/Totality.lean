import Abacus.Proofs.Lowering.Finished
import Abacus.Proofs.Lowering.Supplied
import Abacus.Proofs.Lowering.Units
import Abacus.Proofs.Variables.Termination

/-!
# Work on a draft that does not fail

Reading a variable fails if the variable has no type, and sealing a block fails if that has been done
before. Neither happens while a function is lowered: wherever lowering reads or seals, the plan it has
come to is in order. So it is enough for the parts of lowering to be handed searches that are right on
the drafts of such plans: they come to the same result.

* `Plan.Sound.reads`, `Plan.Sound.seals`, `Plan.Sound.searchable` — reading and sealing in a plan that is
  in order;
* `Searches.Faithful` — searches that are right wherever searches end;
* `Drafting.Succeeds`, `Drafting.Concurs` — work on the draft of a plan has a result, with the searches
  that are handed over, too;
* `Drafting.concurs_checkedDiv`, `Drafting.concurs_invoke`, … — the parts of lowering have;
* `openFunction_total`, `closeFunction_total` — functions can be opened and closed.
-/

namespace Abacus.Lowering

open Abacus.Flow (Value Block Ty Inst Terminator Builder Function)

/-! ## Reading and sealing -/

namespace Plan

variable {σ σ₁ : Plan} {c first second : Block}

/-- A variable that has a type can be read. -/
theorem Sound.reads (h : σ.Sound) {x : SymbolId} (htype : (σ.known.type? x).isSome) :
    ∃ v d, (Drafting.read x σ.current).on σ.record.draft = (.ok v, d) :=
  Drafting.read_total (Recording.region_read h.record h.record.current) h.record.coherent
    ⟨rfl, .start σ.current⟩ h.acyclic htype

/-- A block that is not sealed can be. -/
theorem Sound.seals (h : σ.Sound) (hopen : σ.known.isSealed c = false) :
    ∃ d, (Drafting.sealBlock c).on σ.record.draft = (.ok (), d) :=
  Drafting.sealBlock_total (Recording.region_seal h.record c) h.record.coherent
    (Recording.served_seal c) hopen h.acyclic

/-- Searches in the draft of such a plan come to an end. -/
theorem Sound.searchable (h : σ.Sound) : σ.record.draft.Searchable where
  fillable.current := h.record.current
  fillable.preds {c q} hq := by
    by_contra hge
    exact h.open_source hq (h.fresh (Nat.le_of_not_lt hge))
  fillable.typed p hp := by
    obtain ⟨howner, -⟩ := h.record.coherent.waiting p (List.mem_append_left _ hp)
    rw [(h.record.coherent.owned howner).2.2.2.1]
    rfl
  registers p hp := by
    obtain ⟨howner, hblock⟩ := h.record.coherent.waiting p (List.mem_append_left _ hp)
    exact ⟨(h.record.coherent.owned howner).1, hblock⟩
  acyclic := h.acyclic

/-- Of two blocks that wait the second one can still be sealed when the first one is. -/
theorem Forking.sealedFirst (h : Forking σ σ₁ first second) (hne : first ≠ second) {d : Draft}
    (hsealed : (Drafting.sealBlock first).on σ₁.record.draft = (.ok (), d)) :
    (σ₁.sealed first d).Sound ∧ (σ₁.sealed first d).known.isSealed second = false := by
  obtain ⟨hsound, e, -, -⟩ := h.atFirst.sealed h.sound hsealed
  have hsecond := h.atSecond.spared e (spares_sealed h.sound h.atFirst.exists' hsealed hne.symm)
  exact ⟨hsound, hsecond.isSealed⟩

/-- A block that is entered and gone on in can branch to two blocks that wait. -/
theorem Gives.turns {s sources : List Block} {v : Value} (hgives : Gives (σ.enter c s) σ₁ v)
    (hc : σ.Awaits c true sources) (henter : (σ.enter c s).Ready) (hne : first ≠ second)
    (hfirst : σ.Awaits first false []) (hsecond : σ.Awaits second false []) :
    Forking σ₁ (σ₁.terminate (.branch v first second)) first second :=
  hgives.ready.forkBranch hgives.has hne (hfirst.kept (hfirst.ne_sealed hc) henter hgives)
    (hsecond.kept (hsecond.ne_sealed hc) henter hgives)

end Plan

/-! ## Searches that are handed over -/

/-- Wherever searches end, these do what lowering's own do. -/
structure Searches.Faithful (S : Searches) : Prop where
  read : ∀ {d : Draft} (x : SymbolId) (b : Block), d.Searchable →
    (S.read x b).on d = (Drafting.read x b).on d
  sealBlock : ∀ {d : Draft} (b : Block), d.Searchable →
    (S.sealBlock b).on d = (Drafting.sealBlock b).on d

theorem Searches.faithful_own : own.Faithful := ⟨fun _ _ _ => rfl, fun _ _ => rfl⟩

namespace Drafting

open Plan

variable {α β : Type} {work : Drafting α} {next : α → Drafting β} {σ : Plan}

/-- The work on the draft of a plan has a result. -/
def Succeeds (work : Drafting α) (σ : Plan) : Prop := ∃ a d, work.on σ.record.draft = (.ok a, d)

/-- Work with the searches that are handed over and work with lowering's own come to the same result. -/
def Concurs (handed own : Drafting α) (σ : Plan) : Prop :=
  ∃ a d, handed.on σ.record.draft = (.ok a, d) ∧ own.on σ.record.draft = (.ok a, d)

theorem Concurs.succeeds {handed own : Drafting α} (h : Concurs handed own σ) : Succeeds own σ := by
  obtain ⟨a, d, -, hown⟩ := h
  exact ⟨a, d, hown⟩

theorem Concurs.on_eq {handed own : Drafting α} (h : Concurs handed own σ) :
    handed.on σ.record.draft = own.on σ.record.draft := by
  obtain ⟨a, d, hhanded, hown⟩ := h
  rw [hhanded, hown]

theorem Concurs.bind {handed own : Drafting α} {handedNext ownNext : α → Drafting β}
    {mid : α → Plan → Prop} (h : Concurs handed own σ) (hleads : Leads own σ mid)
    (hnext : ∀ a σ₁, mid a σ₁ → Concurs (handedNext a) (ownNext a) σ₁) :
    Concurs (handed >>= handedNext) (own >>= ownNext) σ := by
  obtain ⟨a, d, hhanded, hown⟩ := h
  obtain ⟨σ₁, rfl, hmid⟩ := hleads a d hown
  obtain ⟨b, d', hhanded', hown'⟩ := hnext a σ₁ hmid
  refine ⟨b, d', ?_, ?_⟩
  · rw [on_bind, hhanded]
    exact hhanded'
  · rw [on_bind, hown]
    exact hown'

variable {S : Searches} (hS : S.Faithful)

include hS

theorem concurs_sealBlock {c : Block} (hσ : σ.Sound) (hopen : σ.known.isSealed c = false) :
    Concurs (S.sealBlock c) (sealBlock c) σ := by
  obtain ⟨d, h⟩ := hσ.seals hopen
  exact ⟨(), d, (hS.sealBlock c hσ.searchable).trans h, h⟩

theorem concurs_read {x : SymbolId} (hσ : σ.Sound) (htype : (σ.known.type? x).isSome) :
    Concurs (S.read x σ.current) (read x σ.current) σ := by
  obtain ⟨v, d, h⟩ := hσ.reads htype
  exact ⟨v, d, (hS.read x σ.current hσ.searchable).trans h, h⟩

/-- A variable that has a type is read in the current block. -/
theorem concurs_readHere {x : SymbolId} (hσ : σ.Sound) (htype : (σ.known.type? x).isSome) :
    Concurs (do S.read x (← currentBlock)) (do read x (← currentBlock)) σ := by
  refine Concurs.bind ⟨_, _, rfl, rfl⟩ (leads_currentBlock σ) ?_
  rintro _ _ ⟨rfl, rfl⟩
  exact concurs_read hS hσ htype

/-- Two blocks that can be sealed one after the other. -/
theorem concurs_sealBoth {σ₀ : Plan} {first second : Block} {handedNext ownNext : Drafting α}
    (h : Forking σ₀ σ first second) (hne : first ≠ second)
    (hnext : ∀ σ', SealsBoth σ first second σ' → Concurs handedNext ownNext σ') :
    Concurs (do S.sealBlock first; S.sealBlock second; handedNext)
      (do sealBlock first; sealBlock second; ownNext) σ := by
  refine Concurs.bind (concurs_sealBlock hS h.sound h.atFirst.isSealed) (leads_sealBlock first σ) ?_
  rintro ⟨⟩ _ ⟨d₁, h₁, rfl⟩
  obtain ⟨hsound, hopen⟩ := h.sealedFirst hne h₁
  refine Concurs.bind (concurs_sealBlock hS hsound hopen) (leads_sealBlock second _) ?_
  rintro ⟨⟩ _ ⟨d₂, h₂, rfl⟩
  exact hnext _ (.intro h₁ h₂)

/-! ## Divisions and calls -/

theorem concurs_checkedDiv (config : FaultConfig) (lhs : Value) {rhs : Value} (hσ : σ.Ready)
    (hrhs : σ.Has σ.current rhs) :
    Concurs (Supplied.checkedDiv S config lhs rhs) (checkedDiv config lhs rhs) σ := by
  refine Concurs.bind ⟨_, _, rfl, rfl⟩ (leads_currentBlock σ) ?_
  rintro check σ ⟨rfl, rfl⟩
  refine Concurs.bind ⟨_, _, rfl, rfl⟩ (leads_newBlock "div.zero" _) ?_
  rintro zero _ ⟨rfl, rfl⟩
  refine Concurs.bind ⟨_, _, rfl, rfl⟩ (leads_newBlock "div.ok" _) ?_
  rintro okay _ ⟨rfl, rfl⟩
  rw [show (⟨(σ.newBlock "div.zero").builder.blockCount⟩ : Block) = σ.block 1 from
    σ.block_newBlock "div.zero" 0]
  refine Concurs.bind ⟨_, _, rfl, rfl⟩ (leads_emit (.intConst 0) .int _) ?_
  rintro value σ₁ ⟨rfl, test⟩
  refine Concurs.bind ⟨_, _, rfl, rfl⟩ (leads_emit _ _ σ₁) ?_
  rintro isZero σ₂ ⟨rfl, compare⟩
  refine Concurs.bind ⟨_, _, rfl, rfl⟩ (leads_terminate _ σ₂) ?_
  rintro ⟨⟩ _ rfl
  have hopened : Opened σ (σ.newBlocks ["div.zero", "div.ok"]) 2 := hσ.newBlocks _
  obtain ⟨hzero, hisZero⟩ := hσ.testDivisor hrhs test compare
  have hcompare := hzero.gives.trans hisZero.gives
  have hne : σ.block 0 ≠ σ.block 1 := block_inj.not.2 (by decide)
  have hfork := hcompare.ready.forkBranch hcompare.has hne
    ((hopened.awaits Nat.zero_lt_two).since hopened.ready.sound hcompare.advance.since)
    ((hopened.awaits Nat.one_lt_two).since hopened.ready.sound hcompare.advance.since)
  exact concurs_sealBoth hS hfork hne fun σ₃ _ => ⟨_, _, rfl, rfl⟩

theorem concurs_fillLanding (config : FaultConfig) {sites : InvokeSites} {s sources : List Block}
    (hσ : σ.Sound) (hlanding : σ.Awaits sites.landing true sources)
    (henter : (σ.enter sites.landing s).Ready) (hne : sites.caught ≠ sites.faulted)
    (hcaught : σ.Awaits sites.caught false []) (hfaulted : σ.Awaits sites.faulted false []) :
    Concurs (Supplied.fillLanding S config sites) (fillLanding config sites) σ := by
  refine Concurs.bind ⟨_, _, rfl, rfl⟩ (leads_setCurrent _ σ s) ?_
  rintro ⟨⟩ _ rfl
  refine Concurs.bind ⟨_, _, rfl, rfl⟩ (leads_emit _ _ _) ?_
  rintro _ σ₁ ⟨rfl, pad⟩
  refine Concurs.bind ⟨_, _, rfl, rfl⟩ (leads_emit _ _ _) ?_
  rintro _ σ₂ ⟨rfl, selector⟩
  refine Concurs.bind ⟨_, _, rfl, rfl⟩ (leads_emit _ _ _) ?_
  rintro _ σ₃ ⟨rfl, typeId⟩
  refine Concurs.bind ⟨_, _, rfl, rfl⟩ (leads_emit _ _ _) ?_
  rintro _ σ₄ ⟨rfl, compare⟩
  refine Concurs.bind ⟨_, _, rfl, rfl⟩ (leads_terminate _ _) ?_
  rintro ⟨⟩ _ rfl
  obtain ⟨h₁, h₂, h₃, h₄⟩ := Ready.testFault hσ hlanding henter pad selector typeId compare
  have hgives := h₁.gives.trans (h₂.gives.trans (h₃.gives.trans h₄.gives))
  exact concurs_sealBoth hS (hgives.turns hlanding henter hne hcaught hfaulted) hne
    fun σ₅ _ => ⟨_, _, rfl, rfl⟩

theorem concurs_fillFaulted {sites : InvokeSites} {s : List Block} {q : Block} (pad : Value)
    {selector : Value} (hσ : σ.Sound) (hfaulted : σ.Awaits sites.faulted true [q])
    (hs : s = σ.spine q) (hselector : σ.Has q selector) (hne : sites.unexpected ≠ sites.cleanup)
    (hunexpected : σ.Awaits sites.unexpected false [])
    (hcleanup : σ.Awaits sites.cleanup false []) :
    Concurs (Supplied.fillFaulted S sites pad selector) (fillFaulted sites pad selector) σ := by
  obtain ⟨henter, -⟩ := hσ.enterBehind hfaulted hs
  refine Concurs.bind ⟨_, _, rfl, rfl⟩ (leads_setCurrent _ σ s) ?_
  rintro ⟨⟩ _ rfl
  refine Concurs.bind ⟨_, _, rfl, rfl⟩ (leads_emit _ _ _) ?_
  rintro _ σ₁ ⟨rfl, zero⟩
  refine Concurs.bind ⟨_, _, rfl, rfl⟩ (leads_emit _ _ _) ?_
  rintro _ σ₂ ⟨rfl, compare⟩
  refine Concurs.bind ⟨_, _, rfl, rfl⟩ (leads_terminate _ _) ?_
  rintro ⟨⟩ _ rfl
  have hgives : Gives (σ.enter sites.faulted s) σ₂ σ₁.next := by
    rw [compare, zero]
    exact gives_withConst henter (hselector.behind hs) rfl (.inl rfl)
  exact concurs_sealBoth hS (hgives.turns hfaulted henter hne hunexpected hcleanup) hne
    fun σ₃ _ => ⟨_, _, rfl, rfl⟩

theorem concurs_invoke (config : FaultConfig) (callee : String) {arguments : List Value}
    (hσ : σ.Ready) (harguments : ∀ u ∈ arguments, σ.Has σ.current u) :
    Concurs (Supplied.invoke S config callee arguments) (invoke config callee arguments) σ := by
  have hother : ∀ {i j}, i ≠ j → σ.block i ≠ σ.block j := fun h => block_inj.not.2 h
  refine Concurs.bind ⟨_, _, rfl, rfl⟩ (leads_newInvokeSites σ) ?_
  rintro sites _ ⟨rfl, rfl⟩
  refine Concurs.bind ⟨_, _, rfl, rfl⟩ (leads_invoke callee arguments .int _ _ _) ?_
  rintro result _ ⟨rfl, rfl⟩
  rw [Plan.valueCount_newBlocks]
  have hopened : Opened σ _ 6 := hσ.newBlocks siteLabels
  have hfork : Forking _ ((σ.newBlocks siteLabels).invoke callee arguments .int (σ.block 0)
      (σ.block 1)) _ _ := hopened.ready.forkInvoke (fun u hu => hopened.has hσ (harguments u hu))
        (hother (by decide)) (hopened.awaits (by decide)) (hopened.awaits (by decide))
  refine concurs_sealBoth hS hfork (hother (by decide)) fun σ₁ fork => ?_
  -- The landing block.
  obtain ⟨hparted, -⟩ :=
    hopened.invoke hσ harguments (by decide) (by decide) (by decide) fork
  obtain ⟨hready₁, -⟩ := hparted.sound.enterBehind hparted.atSecond hparted.spine.symm
  refine Concurs.bind (concurs_fillLanding hS config hparted.sound hparted.atSecond hready₁
    (hother (by decide)) (hparted.others (by decide) (by decide) (by decide))
    (hparted.others (by decide) (by decide) (by decide)))
    (leads_fillLanding config _ σ₁ (σ.spine σ.current)) ?_
  rintro ⟨pad, selector⟩ σ₂ landed
  obtain ⟨hturned, hpad, hselector, -⟩ := landed.turned hparted.sound hparted.atSecond hready₁
    (hother (by decide)) (hparted.others (by decide) (by decide) (by decide))
    (hparted.others (by decide) (by decide) (by decide))
  -- The block that reports the fault.
  have hspine₂ : σ.block 1 :: σ.spine σ.current = σ₂.spine (σ.block 1) := hturned.spine.symm
  obtain ⟨hready₂, -⟩ := hturned.sound.enterBehind hturned.atFirst hspine₂
  refine Concurs.bind ⟨_, _, rfl, rfl⟩
    (leads_fillCaught _ pad σ₂ (σ.block 1 :: σ.spine σ.current)) ?_
  rintro ⟨⟩ σ₃ caught
  obtain ⟨hsound₃, hclose₃, -⟩ :=
    caught.closed hturned.sound hturned.atFirst hready₂ (hpad.behind hspine₂)
  have hfinish₃ := Since.finished hturned.sound hturned.atFirst hready₂ hsound₃ hclose₃
  -- The blocks for faults of other types.
  have hreported := hturned.reported hparted hfinish₃ hpad hselector
  refine Concurs.bind (concurs_fillFaulted hS pad hsound₃ hreported.atFaulted hreported.spine
    hreported.selector (hother (by decide)) hreported.atUnexpected hreported.atCleanup)
    (leads_fillFaulted _ pad selector σ₃ (σ.block 1 :: σ.spine σ.current)) ?_
  rintro ⟨⟩ σ₄ -
  exact ⟨_, _, rfl, rfl⟩

/-! ## Control structures -/

theorem concurs_giveBack {v : Value} (hσ : σ.Ready) (hv : σ.Has σ.current v) :
    Concurs (Supplied.giveBack S v) (Supplied.giveBack .own v) σ := by
  refine Concurs.bind ⟨_, _, rfl, rfl⟩ (leads_terminate _ σ) ?_
  rintro ⟨⟩ _ rfl
  refine Concurs.bind ⟨_, _, rfl, rfl⟩ (leads_newBlock _ _) ?_
  rintro dead _ ⟨rfl, rfl⟩
  refine Concurs.bind ⟨_, _, rfl, rfl⟩ (leads_setCurrent _ _ (σ.spine σ.current)) ?_
  rintro ⟨⟩ _ rfl
  obtain ⟨hsound, -⟩ := hσ.close (t := .ret v) rfl rfl fun u hu => List.mem_singleton.1 hu ▸ hv
  have hwaits := awaits_newBlock hsound "after_return"
  have henter := ((hsound.newBlock "after_return").enterAwaited hwaits (s := σ.spine σ.current)
    (by simp) (by simp)).1
  exact concurs_sealBlock hS henter hwaits.isSealed

theorem concurs_split {test : Value} (hσ : σ.Ready) (htest : σ.Has σ.current test) :
    Concurs (Supplied.split S test) (Supplied.split .own test) σ := by
  refine Concurs.bind ⟨_, _, rfl, rfl⟩ (leads_newBlock "if.then" _) ?_
  rintro thenBlock _ ⟨rfl, rfl⟩
  refine Concurs.bind ⟨_, _, rfl, rfl⟩ (leads_newBlock "if.else" _) ?_
  rintro elseBlock _ ⟨rfl, rfl⟩
  refine Concurs.bind ⟨_, _, rfl, rfl⟩ (leads_newBlock "if.join" _) ?_
  rintro join _ ⟨rfl, rfl⟩
  rw [show (⟨(σ.newBlock "if.then").builder.blockCount⟩ : Block) = σ.block 1 from
    σ.block_newBlock "if.then" 0]
  refine Concurs.bind ⟨_, _, rfl, rfl⟩ (leads_terminate _ _) ?_
  rintro ⟨⟩ _ rfl
  have hopened : Opened σ _ 3 := hσ.newBlocks ["if.then", "if.else", "if.join"]
  have hne : σ.block 0 ≠ σ.block 1 := block_inj.not.2 (by decide)
  have hfork := hopened.ready.forkBranch (hopened.has hσ htest) hne
    (hopened.awaits (by decide)) (hopened.awaits (by decide))
  exact concurs_sealBoth hS hfork hne fun σ₁ _ => ⟨_, _, rfl, rfl⟩

theorem concurs_joinWays {σ₁ σ₂ σ₃ : Plan} (h : SecondBody σ σ₁ σ₂) (hready : σ₃.Ready)
    (hadvance : Advance σ₂ σ₃) :
    Concurs (Supplied.joinWays S (σ.block 2)) (Supplied.joinWays .own (σ.block 2))
      (σ₃.terminate (.jump (σ.block 2))) := by
  have hjoin := h.join.since h.ready.sound hadvance.since
  have hjumped := hready.jump hjoin
  exact .bind (concurs_sealBlock hS hjumped.sound (hjumped.target hjoin).isSealed)
    (leads_sealBlock _ _) fun _ _ _ => ⟨_, _, rfl, rfl⟩

theorem concurs_loopHead {x : SymbolId} {limit : Value} (hσ : σ.Ready)
    (hlimit : σ.Has σ.current limit) (htype : (σ.known.type? x).isSome) :
    Concurs (Supplied.loopHead S x limit) (Supplied.loopHead .own x limit) σ := by
  refine Concurs.bind ⟨_, _, rfl, rfl⟩ (leads_newBlock "for.header" _) ?_
  rintro header _ ⟨rfl, rfl⟩
  refine Concurs.bind ⟨_, _, rfl, rfl⟩ (leads_newBlock "for.body" _) ?_
  rintro bodyBlock _ ⟨rfl, rfl⟩
  refine Concurs.bind ⟨_, _, rfl, rfl⟩ (leads_newBlock "for.body_end" _) ?_
  rintro bodyEnd _ ⟨rfl, rfl⟩
  refine Concurs.bind ⟨_, _, rfl, rfl⟩ (leads_newBlock "for.end" _) ?_
  rintro exit _ ⟨rfl, rfl⟩
  rw [show (⟨(σ.newBlock "for.header").builder.blockCount⟩ : Block) = σ.block 1 from
    σ.block_newBlock "for.header" 0,
    show (⟨(((σ.newBlock "for.header").newBlock "for.body").newBlock
      "for.body_end").builder.blockCount⟩ : Block) = σ.block 3 from
    (((σ.newBlock "for.header").newBlock "for.body").block_newBlock "for.body_end" 0).trans
      (((σ.newBlock "for.header").block_newBlock "for.body" 1).trans
        (σ.block_newBlock "for.header" 2))]
  refine Concurs.bind ⟨_, _, rfl, rfl⟩ (leads_terminate _ _) ?_
  rintro ⟨⟩ _ rfl
  refine Concurs.bind ⟨_, _, rfl, rfl⟩ (leads_setCurrent _ _ (σ.spine σ.current)) ?_
  rintro ⟨⟩ σ₁ enter
  have hopen₁ : LoopOpen σ σ₁ := enter ▸ hσ.loopOpen
  obtain ⟨ty, hty⟩ := Option.isSome_iff_exists.1 htype
  have htype₁ : (σ₁.known.type? x).isSome := by
    rw [hopen₁.since.extends'.type hty]
    rfl
  rw [show (⟨σ.builder.blockCount⟩ : Block) = σ₁.current from hopen₁.current.symm]
  refine Concurs.bind (concurs_read hS hopen₁.sound htype₁) (leads_read x σ₁) ?_
  rintro v _ ⟨d, hread, rfl⟩
  refine Concurs.bind ⟨_, _, rfl, rfl⟩ (leads_emit _ _ _) ?_
  rintro test σ₂ ⟨rfl, compare⟩
  refine Concurs.bind ⟨_, _, rfl, rfl⟩ (leads_terminate _ _) ?_
  rintro ⟨⟩ _ rfl
  obtain ⟨-, hopen₂, htest⟩ := hopen₁.tested hσ.sound hlimit hread compare
  have hfork := hopen₂.fork htest rfl
  exact .bind (concurs_sealBlock hS hfork.sound hfork.atFirst.isSealed) (leads_sealBlock _ _)
    fun _ _ _ => ⟨_, _, rfl, rfl⟩

theorem concurs_loopTail {x : SymbolId} {σ₀ σ₁ : Plan} (hσ : σ.Ready) (hbody : LoopBody σ σ₀)
    (hready : σ₁.Ready) (hadvance : Advance σ₀ σ₁) (htype : (σ₁.known.type? x).isSome) :
    Concurs (Supplied.loopTail S x (σ.block 0) (σ.block 2) (σ.block 3))
      (Supplied.loopTail .own x (σ.block 0) (σ.block 2) (σ.block 3))
      (σ₁.terminate (.jump (σ.block 2))) := by
  have hbodyEnd := hbody.bodyEnd.since hbody.ready.sound hadvance.since
  have hjumped := hready.jump hbodyEnd
  refine Concurs.bind (concurs_sealBlock hS hjumped.sound (hjumped.target hbodyEnd).isSealed)
    (leads_sealBlock _ _) ?_
  rintro ⟨⟩ _ ⟨d, sealEnd, rfl⟩
  refine Concurs.bind ⟨_, _, rfl, rfl⟩ (leads_setCurrent _ _ (σ₁.spine σ₁.current)) ?_
  rintro ⟨⟩ σ₂ enter
  have hend : LoopEnd σ σ₁ σ₂ := enter ▸ hbody.loopEnd hready hadvance sealEnd
  obtain ⟨ty, hty⟩ := Option.isSome_iff_exists.1 htype
  have htype₂ : (σ₂.known.type? x).isSome := by
    rw [hend.extends'.type hty]
    rfl
  have hread := leads_read x σ₂
  have hreads := concurs_read hS hend.ready.sound htype₂
  rw [hend.current] at hread hreads
  refine Concurs.bind hreads hread ?_
  rintro v σ₂' ⟨d₂, hread, hσ₂⟩
  rw [← hend.current] at hread
  refine Concurs.bind ⟨_, _, rfl, rfl⟩ (leads_emit _ _ _) ?_
  rintro one σ₃ ⟨rfl, hone⟩
  refine Concurs.bind ⟨_, _, rfl, rfl⟩ (leads_emit _ _ _) ?_
  rintro next σ₄ ⟨rfl, hnext⟩
  refine Concurs.bind ⟨_, _, rfl, rfl⟩ (leads_terminate _ _) ?_
  rintro ⟨⟩ _ rfl
  rw [hσ₂] at hone hnext
  obtain ⟨-, hemits, hgives⟩ := hend.counts hread hone hnext
  have hcurrent : σ₄.current = σ₂.current := hemits.stands.current.trans hend.current.symm
  have hcounted := hend.counted hbody hadvance hgives hcurrent
  have hwrite := leads_write x σ₃.next (σ₄.terminate (.jump (σ.block 0)))
  rw [show (σ₄.terminate (.jump (σ.block 0))).current = σ.block 2 from
    (Builder.current_terminate ..).trans (hcurrent.trans hend.current)] at hwrite
  refine Concurs.bind ⟨_, _, rfl, rfl⟩ hwrite ?_
  rintro ⟨⟩ σ₅ back
  have hwritten := hcounted.written hσ hgives.has back
  have hopen : σ₅.known.isSealed (σ.block 0) = false := by
    rw [back]
    exact hcounted.header.1
  refine Concurs.bind (concurs_sealBlock hS hwritten.sound hopen) (leads_sealBlock _ _) ?_
  rintro ⟨⟩ _ ⟨d₃, sealHeader, rfl⟩
  obtain ⟨hsound, -, -, -, hexit, -⟩ := hwritten.headerSealed sealHeader
  exact .bind (concurs_sealBlock hS hsound hexit.isSealed) (leads_sealBlock _ _)
    fun _ _ _ => ⟨_, _, rfl, rfl⟩

omit hS

/-! ## Functions -/

theorem concurs_endBody (hσ : σ.Ready) (r : Option Value) : Concurs (endBody r) (endBody r) σ := by
  have hopen : ¬ σ.record.draft.builder.isTerminated σ.record.draft.builder.current = true := by
    show ¬ (σ.terminator? σ.current).isSome = true
    rw [hσ.isOpen]
    decide
  refine Concurs.bind ⟨_, _, rfl, rfl⟩ (leads_get σ) ?_
  rintro _ _ ⟨rfl, rfl⟩
  rw [if_neg hopen]
  cases r <;> exact ⟨_, _, rfl, rfl⟩

end Drafting

open Plan

/-- A name in scope can get another meaning. -/
theorem SymbolTable.redefine_total {t : SymbolTable} {name : String}
    (h : (t.lookup? name).isSome) (binding : Binding) :
    ∃ result, t.redefine name binding = .ok result := by
  obtain ⟨symbol, hsymbol⟩ := Option.isSome_iff_exists.1 h
  unfold redefine
  rw [hsymbol]
  dsimp only
  split <;> exact ⟨_, rfl⟩

/-- When all blocks are sealed no phi waits. -/
theorem Plan.Closed.finishes {σ : Plan} (h : σ.Closed) (hσ : σ.Sound) :
    σ.known.finish = .ok () := by
  have hnone : σ.known.incomplete = [] := by
    refine List.eq_nil_iff_forall_not_mem.2 fun p hp => ?_
    obtain ⟨howner, hblock⟩ := hσ.record.coherent.waiting p (List.mem_append_left _ hp)
    have hlt := (hσ.record.coherent.owned howner).2.1
    have hopen := hσ.record.coherent.unsealed p hp
    rw [hblock] at hlt
    rw [(h _ hlt).1] at hopen
    cases hopen
  unfold Variables.finish
  rw [hnone]
  rfl

/-- A function is opened if its name is new. -/
theorem openFunction_total {symbols opened : SymbolTable} {name : String} {arity : Nat}
    {id : SymbolId} (h : symbols.define name (.function arity false) = .ok (id, opened)) :
    ∃ σ, Opens name arity σ ∧ openFunction symbols name arity = .ok ⟨opened, σ.record.draft, false⟩ := by
  have hstart := sound_start name (List.replicate arity .int) .int
  obtain ⟨d, hseal⟩ := hstart.seals (c := Function.entry) rfl
  have hrun : Lower.onDraft (Drafting.sealBlock Function.entry)
      ⟨opened, (start name (List.replicate arity .int) .int).record.draft, false⟩ =
        .ok ((), ⟨opened, d, false⟩) := by
    unfold Lower.onDraft
    rw [hseal]
  refine ⟨_, .intro hseal, ?_⟩
  unfold openFunction
  rw [h]
  exact congrArg (· >>= fun result => pure result.2) hrun

/-- A function whose body has been lowered can be closed. -/
theorem closeFunction_total {options : Options} {opened : SymbolTable} {routine : Routine} {b : Bool}
    {r : Option Value} {name : String} {arity : Nat} {s : State} {σ : Plan}
    (hdraft : s.draft = σ.record.draft) (hbody : Body options.fault opened routine b r s.symbols σ)
    (hname : (s.symbols.lookup? name).isSome) :
    ∃ f symbols, closeFunction options name arity r s = .ok (f, symbols) := by
  obtain ⟨_, -, hready, -⟩ := hbody.advance
  obtain ⟨u, d, hend⟩ := (Drafting.concurs_endBody hready r).succeeds
  obtain ⟨σ', rfl, hended⟩ := Drafting.leads_endBody hready r u d hend
  have hmade : Made options.fault opened routine b s.symbols σ' := .intro hbody hended
  obtain ⟨hsound, hclosed⟩ := hmade.closed
  have hrun : Lower.onDraft (endBody r) s = .ok (u, { s with draft := σ'.record.draft }) := by
    unfold Lower.onDraft
    rw [hdraft, hend]
  have hfinish : finishDraft options.verify σ'.record.draft = .ok σ'.builder.function := by
    rw [finishDraft_verify hmade.violation?_eq_none]
    unfold finishDraft
    rw [hclosed.finishes hsound]
    rfl
  unfold closeFunction
  rw [hrun]
  simp only [bind, Except.bind, hfinish]
  split
  · obtain ⟨⟨id, symbols⟩, hredefine⟩ :=
      SymbolTable.redefine_total hname (.function arity true)
    rw [hredefine]
    exact ⟨_, _, rfl⟩
  · exact ⟨_, _, rfl⟩

end Abacus.Lowering
