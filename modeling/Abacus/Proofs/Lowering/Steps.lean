import Abacus.Proofs.Lowering.Plan

/-!
# Going on

A part of lowering starts in a block that is open and ends in one, and in between it finishes every
block that it has made. What stood outside is not touched, so parts can be put into each other.

* `Plan.Spares` — nothing happens to a block;
* `Plan.Awaits` — a block that has been made and not entered;
* `Plan.Ready` — the current block can be gone on in;
* `Plan.Advance` — what a part of lowering does.
-/

namespace Abacus.Lowering

open Abacus.Flow (Value Block Ty Inst Terminator Builder)

namespace Plan

/-! ## Blocks that are left alone -/

/-- Nothing happens to the block, except that searches put phis there. -/
structure Spares (σ σ' : Plan) (c : Block) : Prop where
  spine : σ'.spine c = σ.spine c
  preds : σ'.builder.preds c = σ.builder.preds c
  isSealed : σ'.known.isSealed c = σ.known.isSealed c
  terminator : σ'.terminator? c = σ.terminator? c
  script : σ'.record.script c = σ.record.script c

/-- A block that has been made and not entered, the edges that lead there, and whether there will
be no more of them. -/
structure Awaits (σ : Plan) (c : Block) (closed : Bool) (sources : List Block) : Prop where
  exists' : c.index < σ.builder.blockCount
  spine : σ.spine c = []
  isSealed : σ.known.isSealed c = closed
  preds : σ.builder.preds c = sources

section

variable {σ σ₁ σ₂ : Plan} {c : Block}

theorem Spares.trans (h₁ : Spares σ σ₁ c) (h₂ : Spares σ₁ σ₂ c) : Spares σ σ₂ c where
  spine := h₂.spine.trans h₁.spine
  preds := h₂.preds.trans h₁.preds
  isSealed := h₂.isSealed.trans h₁.isSealed
  terminator := h₂.terminator.trans h₁.terminator
  script := h₂.script.trans h₁.script

theorem Awaits.spared {closed : Bool} {sources : List Block} (h : σ.Awaits c closed sources)
    (e : Extends σ σ₁) (hc : Spares σ σ₁ c) : σ₁.Awaits c closed sources where
  exists' := Nat.lt_of_lt_of_le h.exists' e.blockCount
  spine := hc.spine.trans h.spine
  isSealed := hc.isSealed.trans h.isSealed
  preds := hc.preds.trans h.preds

/-- The current block has been entered. -/
theorem Awaits.ne_current {closed : Bool} {sources : List Block} (hσ : σ.Sound)
    (h : σ.Awaits c closed sources) : c ≠ σ.current := by
  rintro rfl
  exact hσ.used h.spine

/-- A block that has not been entered has no end. -/
theorem Awaits.terminator {closed : Bool} {sources : List Block} (hσ : σ.Sound)
    (h : σ.Awaits c closed sources) : σ.terminator? c = none := by
  cases ht : σ.terminator? c with
  | none => rfl
  | some t => exact absurd h.spine (hσ.ends ht).1

/-- The entry has been entered. -/
theorem Awaits.ne_entry {closed : Bool} {sources : List Block} (hσ : σ.Sound)
    (h : σ.Awaits c closed sources) : c ≠ Flow.Function.entry := by
  rintro rfl
  have := hσ.start.1
  rw [h.spine] at this
  cases this

end

section

variable (σ : Plan) {c : Block}

theorem spares_emit (inst : Inst) (ty : Ty) (hc : c ≠ σ.current) : Spares σ (σ.emit inst ty) c where
  spine := rfl
  preds := (info_emit σ inst ty c).2.2.1
  isSealed := rfl
  terminator := (info_emit σ inst ty c).2.1
  script := by rw [script_emit, Recording.happen_of_ne _ _ hc]

theorem spares_newBlock (label : String) : Spares σ (σ.newBlock label) c where
  spine := rfl
  preds := (info_newBlock σ label c).2.2.1
  isSealed := rfl
  terminator := (info_newBlock σ label c).2.1
  script := rfl

theorem spares_enter {b : Block} (s : List Block) (hc : c ≠ b) : Spares σ (σ.enter b s) c where
  spine := if_neg hc
  preds := rfl
  isSealed := rfl
  terminator := rfl
  script := rfl

theorem spares_write (x : SymbolId) (v : Value) (hc : c ≠ σ.current) :
    Spares σ (σ.write x v) c where
  spine := rfl
  preds := rfl
  isSealed := rfl
  terminator := rfl
  script := Recording.happen_of_ne _ _ hc

theorem spares_declare (x : SymbolId) (ty : Ty) : Spares σ (σ.declare x ty) c where
  spine := rfl
  preds := rfl
  isSealed := rfl
  terminator := rfl
  script := rfl

variable {σ}

theorem spares_terminate (h : σ.Sound) {t : Terminator} (hc : c ≠ σ.current)
    (ht : c ∉ t.successors) : Spares σ (σ.terminate t) c where
  spine := rfl
  preds := Builder.preds_terminate_of_notMem ht
  isSealed := rfl
  terminator := by rw [terminator?_terminate h, if_neg hc]
  script := rfl

theorem spares_invoke (h : σ.Sound) {callee : String} {arguments : List Value} {result : Ty}
    {normal unwind : Block} (hc : c ≠ σ.current) (ht : c ∉ [normal, unwind]) :
    Spares σ (σ.invoke callee arguments result normal unwind) c where
  spine := rfl
  preds := Builder.preds_terminate_of_notMem
    (b := (σ.withCall callee arguments result).builder) ht
  isSealed := rfl
  terminator := by rw [terminator?_invoke h, if_neg hc]
  script := by rw [script_invoke, Recording.happen_of_ne _ _ hc]

theorem spares_read (h : σ.Sound) {x : SymbolId} {v : Value} {draft : Draft}
    (hread : (Drafting.read x σ.current).on σ.record.draft = (.ok v, draft))
    (hc : c ≠ σ.current) : Spares σ (σ.read x v draft) c := by
  have hs := Recording.searches_read h.record h.record.current hread
  constructor
  case spine => rfl
  case preds => exact hs.preds c
  case isSealed => exact hs.grows.isSealed c
  case terminator => exact hs.terminator c
  case script => exact Recording.happen_of_ne _ _ hc

theorem spares_sealed (h : σ.Sound) {b : Block} {draft : Draft}
    (hb : b.index < σ.builder.blockCount)
    (hseal : (Drafting.sealBlock b).on σ.record.draft = (.ok (), draft)) (hc : c ≠ b) :
    Spares σ (σ.sealed b draft) c := by
  obtain ⟨d₁, hs⟩ := Recording.searches_seal h.record hb hseal
  constructor
  case spine => rfl
  case preds => exact hs.preds c
  case isSealed =>
    have hiff := hs.isSealed' c
    rw [Option.some.injEq, or_iff_left (Ne.symm hc)] at hiff
    exact Bool.eq_iff_iff.2 hiff
  case terminator => exact hs.terminator c
  case script => rfl

end

end Plan
/-! ## Blocks that wait -/

namespace Plan

section

variable {σ : Plan} {c : Block} {closed : Bool} {sources : List Block}

theorem awaits_newBlock (h : σ.Sound) (label : String) :
    (σ.newBlock label).Awaits ⟨σ.builder.blockCount⟩ false [] where
  exists' := by
    rw [blockCount_newBlock]
    exact Nat.lt_succ_self _
  spine := h.fresh (Nat.le_refl _)
  isSealed := by
    show σ.known.isSealed _ = false
    by_contra hsealed
    exact Nat.lt_irrefl _
      (h.record.coherent.exists_of_sealed (Bool.not_eq_false _ ▸ hsealed))
  preds := by
    rw [(info_newBlock σ label _).2.2.1]
    exact Builder.preds_of_le (Nat.le_refl _)

/-- Edges may lead to blocks that wait and are not sealed. -/
theorem mayLead (h : σ.Sound) {targets : List Block}
    (ht : ∀ c ∈ targets, ∃ sources, σ.Awaits c false sources) : σ.MayLead targets := by
  intro c hc
  obtain ⟨sources, hawaits⟩ := ht c hc
  exact ⟨hawaits.exists', hawaits.isSealed, hawaits.ne_entry h, fun hne => absurd hawaits.spine hne⟩

theorem Awaits.terminate (h : σ.Awaits c closed sources) {t : Terminator}
    (ht : t.successors.count c = 1) :
    (σ.terminate t).Awaits c closed (sources ++ [σ.current]) where
  exists' := by
    rw [show (σ.terminate t).builder.blockCount = _ from Builder.blockCount_terminate ..]
    exact h.exists'
  spine := h.spine
  isSealed := h.isSealed
  preds := by
    rw [show (σ.terminate t).builder.preds c = _ from Builder.preds_terminate h.exists', ht]
    rw [show σ.builder.preds c = _ from h.preds]
    rfl

theorem Awaits.invoke (h : σ.Awaits c closed sources) {callee : String} {arguments : List Value}
    {result : Ty} {normal unwind : Block} (ht : [normal, unwind].count c = 1) :
    (σ.invoke callee arguments result normal unwind).Awaits c closed (sources ++ [σ.current]) := by
  have hcall : (σ.withCall callee arguments result).Awaits c closed sources :=
    ⟨h.exists', h.spine, h.isSealed, h.preds⟩
  exact hcall.terminate (t := .invoke ⟨σ.builder.valueCount⟩ normal unwind) ht

/-- A block that waits can be sealed. -/
theorem Awaits.sealed (h : σ.Awaits c closed sources) (hσ : σ.Sound) {draft : Draft}
    (hseal : (Drafting.sealBlock c).on σ.record.draft = (.ok (), draft)) :
    (σ.sealed c draft).Sound ∧ Extends σ (σ.sealed c draft) ∧
      (σ.sealed c draft).Awaits c true sources ∧ (σ.sealed c draft).current = σ.current := by
  obtain ⟨hsound, e, hcurrent, hsealed, hpreds, -⟩ :=
    hσ.sealBlock h.exists' (fun _ _ => h.spine) hseal
  exact ⟨hsound, e, ⟨Nat.lt_of_lt_of_le h.exists' e.blockCount, h.spine, (hsealed c).2 (.inr rfl),
    (hpreds c).trans h.preds⟩, hcurrent⟩

end

/-! ## Open blocks -/

/-- The current block can be gone on in. -/
structure Ready (σ : Plan) : Prop where
  sound : σ.Sound
  isSealed : σ.known.isSealed σ.current = true
  isOpen : σ.terminator? σ.current = none

section

variable {σ : Plan} {c : Block} {sources : List Block}

/-- A block that waits can be entered behind blocks that are on the way from all its sources. -/
theorem Sound.enterAwaited (hσ : σ.Sound) {closed : Bool} (h : σ.Awaits c closed sources)
    {s : List Block} (hall : ∀ q ∈ sources, ∀ a ∈ s, a ∈ σ.spine q)
    (hone : ∀ q, sources = [q] → s = σ.spine q) :
    (σ.enter c s).Sound ∧ Extends σ (σ.enter c s) := by
  refine ⟨hσ.enter h.exists' h.spine ?_ ?_, extends_enter hσ h.spine s⟩
  · rw [h.preds]
    exact hall
  · intro q _ hp
    rw [h.preds] at hp
    exact hone q hp

theorem Sound.enterSealed (hσ : σ.Sound) (h : σ.Awaits c true sources) {s : List Block}
    (hall : ∀ q ∈ sources, ∀ a ∈ s, a ∈ σ.spine q)
    (hone : ∀ q, sources = [q] → s = σ.spine q) :
    (σ.enter c s).Ready ∧ Extends σ (σ.enter c s) := by
  obtain ⟨hsound, e⟩ := hσ.enterAwaited h hall hone
  have hopen : σ.terminator? c = none := h.terminator hσ
  exact ⟨⟨hsound, h.isSealed, hopen⟩, e⟩

/-- A block that waits for one edge only comes right behind its source. -/
theorem Sound.enterBehind (hσ : σ.Sound) {q : Block} (h : σ.Awaits c true [q]) {s : List Block}
    (hs : s = σ.spine q) : (σ.enter c s).Ready ∧ Extends σ (σ.enter c s) := by
  subst hs
  refine hσ.enterSealed h ?_ ?_
  · intro q' hq' a ha
    rw [List.mem_singleton.1 hq']
    exact ha
  · intro q' hq'
    cases hq'
    rfl

theorem Ready.emit (h : σ.Ready) {inst : Inst} (ty : Ty)
    (hoperands : ∀ u ∈ inst.operands, σ.Has σ.current u) : (σ.emit inst ty).Ready where
  sound := h.sound.emit h.isOpen ty hoperands
  isSealed := h.isSealed
  isOpen := ((info_emit σ inst ty _).2.1).trans h.isOpen

theorem Ready.newBlock (h : σ.Ready) (label : String) : (σ.newBlock label).Ready where
  sound := h.sound.newBlock label
  isSealed := h.isSealed
  isOpen := ((info_newBlock σ label _).2.1).trans h.isOpen

/-- An open block leads nowhere. -/
theorem Ready.successors (h : σ.Ready) : σ.builder.function.successors σ.current = [] := by
  have hopen : (σ.builder.function.block σ.current).terminator? = none := h.isOpen
  unfold Flow.Function.successors
  rw [hopen]

theorem Ready.write (h : σ.Ready) (x : SymbolId) {v : Value} (hv : σ.Has σ.current v) :
    (σ.write x v).Ready where
  sound := h.sound.write hv (by simp [h.successors])
  isSealed := h.isSealed
  isOpen := h.isOpen

theorem Ready.declare (h : σ.Ready) (x : SymbolId) (ty : Ty) : (σ.declare x ty).Ready where
  sound := h.sound.declare x ty
  isSealed := h.isSealed
  isOpen := h.isOpen

theorem Ready.read (h : σ.Ready) {x : SymbolId} {v : Value} {draft : Draft}
    (hread : (Drafting.read x σ.current).on σ.record.draft = (.ok v, draft)) :
    (σ.read x v draft).Ready := by
  obtain ⟨hsound, -, -, hcurrent⟩ := h.sound.read hread
  have hs := Recording.searches_read h.sound.record h.sound.record.current hread
  refine ⟨hsound, ?_, ?_⟩
  · rw [hcurrent]
    exact (hs.grows.isSealed σ.current).trans h.isSealed
  · rw [hcurrent]
    exact (hs.terminator σ.current).trans h.isOpen

end

end Plan
/-! ## What has been done since -/

namespace Plan

/-- A block that belongs to what is done from a plan on: its current block, or one made later. -/
def Own (σ : Plan) (c : Block) : Prop := c = σ.current ∨ σ.builder.blockCount ≤ c.index

/-- What has been done since a plan: nothing to the blocks outside, and the own ones are finished
except for those that are `live`. -/
structure Since (σ σ' : Plan) (live : List Block) : Prop where
  extends' : Extends σ σ'
  spares : ∀ {c}, ¬ σ.Own c → Spares σ σ' c
  settled : ∀ {c : Block}, c.index < σ'.builder.blockCount → σ.Own c →
    c ∈ live ∨ σ'.known.isSealed c = true ∧ (σ'.terminator? c).isSome

/-- A part of lowering goes from the current block to another one, and finishes all the others. -/
structure Advance (σ σ' : Plan) : Prop where
  since : Since σ σ' [σ'.current]
  own : σ.Own σ'.current
  spine : ∀ a ∈ σ.spine σ.current, a ∈ σ'.spine σ'.current

section

variable {σ σ₁ σ₂ : Plan} {live live' : List Block}

theorem Since.start (σ : Plan) : Since σ σ [σ.current] where
  extends' := .rfl' σ
  spares _ := ⟨rfl, rfl, rfl, rfl, rfl⟩
  settled {c} hlt hown := by
    rcases hown with rfl | hle
    · simp
    · exact absurd hlt (Nat.not_lt.2 hle)

/-- A further step touches blocks of its own only, and keeps count of the live ones. -/
theorem Since.step (h : Since σ σ₁ live) (e : Extends σ₁ σ₂) (touched : List Block)
    (hown : ∀ c ∈ touched, σ.Own c) (hspares : ∀ c, c ∉ touched → Spares σ₁ σ₂ c)
    (hnew : ∀ c : Block, σ₁.builder.blockCount ≤ c.index → c.index < σ₂.builder.blockCount →
      c ∈ live')
    (hlive : ∀ c ∈ live, c ∈ live' ∨ σ₂.known.isSealed c = true ∧ (σ₂.terminator? c).isSome) :
    Since σ σ₂ live' where
  extends' := h.extends'.trans e
  spares hc := (h.spares hc).trans (hspares _ fun hmem => hc (hown _ hmem))
  settled {c} hlt hc := by
    by_cases hold : c.index < σ₁.builder.blockCount
    · rcases h.settled hold hc with hmem | ⟨hsealed, hterm⟩
      · exact hlive c hmem
      · obtain ⟨t, ht⟩ := Option.isSome_iff_exists.1 hterm
        exact .inr ⟨e.isSealed hsealed, by rw [e.terminator ht]; rfl⟩
    · exact .inl (hnew c (Nat.not_lt.1 hold) hlt)

theorem Own.mono {c : Block} (hcount : σ.builder.blockCount ≤ σ₁.builder.blockCount)
    (hcurrent : σ.Own σ₁.current) (hc : σ₁.Own c) : σ.Own c := by
  rcases hc with rfl | hle
  · exact hcurrent
  · exact .inr (Nat.le_trans hcount hle)

/-- What a part does belongs to the whole. -/
theorem Since.trans {live₂ : List Block} (h : Since σ σ₁ live) (hcurrent : σ.Own σ₁.current)
    (h₂ : Since σ₁ σ₂ live₂) (hlive : ∀ c ∈ live, c ≠ σ₁.current → c ∈ live')
    (hlive₂ : ∀ c ∈ live₂, c ∈ live') : Since σ σ₂ live' where
  extends' := h.extends'.trans h₂.extends'
  spares hc := (h.spares hc).trans
    (h₂.spares fun hown => hc (.mono h.extends'.blockCount hcurrent hown))
  settled {c} hlt hc := by
    by_cases hown : σ₁.Own c
    · rcases h₂.settled hlt hown with hmem | hdone
      · exact .inl (hlive₂ c hmem)
      · exact .inr hdone
    · have hspared := h₂.spares hown
      have hold : c.index < σ₁.builder.blockCount := by
        by_contra hle
        exact hown (.inr (Nat.not_lt.1 hle))
      rcases h.settled hold hc with hmem | ⟨hsealed, hterm⟩
      · exact .inl (hlive c hmem fun he => hown (.inl he))
      · exact .inr ⟨hspared.isSealed.trans hsealed, by rw [hspared.terminator]; exact hterm⟩

/-- A part that goes on in the current block takes its place. -/
theorem Since.advance (h : Since σ σ₁ (σ₁.current :: live)) (hcurrent : σ.Own σ₁.current)
    (ha : Advance σ₁ σ₂) : Since σ σ₂ (σ₂.current :: live) := by
  refine h.trans hcurrent ha.since ?_ ?_
  · intro c hc hne
    rcases List.mem_cons.1 hc with rfl | hmem
    · exact absurd rfl hne
    · exact List.mem_cons_of_mem _ hmem
  · intro c hc
    rw [List.mem_singleton.1 hc]
    exact List.mem_cons_self

theorem Since.mono (h : Since σ σ₁ live) (hlive : ∀ c ∈ live, c ∈ live') : Since σ σ₁ live' :=
  ⟨h.extends', h.spares, fun hlt hc => (h.settled hlt hc).imp_left (hlive _)⟩

/-- A block that waits outside of a part goes on waiting. -/
theorem Awaits.since {c : Block} {closed : Bool} {sources : List Block}
    (h : σ.Awaits c closed sources) (hσ : σ.Sound) (hs : Since σ σ₁ live) :
    σ₁.Awaits c closed sources := by
  refine h.spared hs.extends' (hs.spares ?_)
  rintro (hc | hle)
  · exact h.ne_current hσ hc
  · exact Nat.lt_irrefl _ (Nat.lt_of_lt_of_le h.exists' hle)

namespace Advance

theorem rfl' (σ : Plan) : Advance σ σ := ⟨.start σ, .inl rfl, fun _ => id⟩

theorem trans (h₁ : Advance σ σ₁) (h₂ : Advance σ₁ σ₂) : Advance σ σ₂ where
  since := h₁.since.advance h₁.own h₂
  own := .mono h₁.since.extends'.blockCount h₁.own h₂.own
  spine a ha := h₂.spine a (h₁.spine a ha)

/-- A step inside of the current block. -/
theorem here (hσ : σ.Sound) (e : Extends σ σ₁) (hcurrent : σ₁.current = σ.current)
    (hcount : σ₁.builder.blockCount = σ.builder.blockCount)
    (hspares : ∀ c, c ≠ σ.current → Spares σ σ₁ c) : Advance σ σ₁ where
  since := by
    rw [hcurrent]
    refine (Since.start σ).step e [σ.current] ?_ ?_ ?_ fun c hc => .inl hc
    · intro c hc
      exact .inl (List.mem_singleton.1 hc)
    · intro c hc
      exact hspares c fun h => hc (List.mem_singleton.2 h)
    · intro c hle hlt
      rw [hcount] at hlt
      exact absurd hlt (Nat.not_lt.2 hle)
  own := .inl hcurrent
  spine a ha := by
    rw [hcurrent, e.spine hσ.used]
    exact ha

end Advance

theorem advance_emit (h : σ.Sound) (hopen : σ.terminator? σ.current = none) (inst : Inst)
    (ty : Ty) : Advance σ (σ.emit inst ty) :=
  .here h (extends_emit hopen) rfl (Builder.blockCount_push ..) fun _ => spares_emit σ inst ty

theorem advance_write (h : σ.Ready) (x : SymbolId) (v : Value) : Advance σ (σ.write x v) :=
  .here h.sound (extends_write σ x v) rfl rfl fun _ => spares_write σ x v

theorem advance_declare (h : σ.Ready) (x : SymbolId) (ty : Ty) : Advance σ (σ.declare x ty) :=
  .here h.sound (extends_declare h.sound x ty) rfl rfl fun _ _ => spares_declare σ x ty

theorem advance_read (h : σ.Sound) {x : SymbolId} {v : Value} {draft : Draft}
    (hread : (Drafting.read x σ.current).on σ.record.draft = (.ok v, draft)) :
    Advance σ (σ.read x v draft) := by
  obtain ⟨-, e, -, hcurrent⟩ := h.read hread
  have hs := Recording.searches_read h.record h.record.current hread
  exact .here h e hcurrent hs.grows.blockCount fun _ => spares_read h hread

/-- What can be used stays so in what follows. -/
theorem Advance.has (h : Advance σ σ₁) (hσ : σ.Sound) {v : Value} (hv : σ.Has σ.current v) :
    σ₁.Has σ₁.current v := by
  obtain ⟨hmem, hlisted⟩ := hv.mono hσ h.since.extends'
  refine ⟨h.spine _ ?_, hlisted⟩
  rw [h.since.extends'.spine hσ.used] at hmem
  exact hmem

end

end Plan
/-! ## Keeping count -/

namespace Plan

section

variable {σ σ₁ σ₂ : Plan} {live live' : List Block}

/-- A further block is live. -/
theorem Since.newBlock (h : Since σ σ₁ live) (label : String) :
    Since σ (σ₁.newBlock label) (⟨σ₁.builder.blockCount⟩ :: live) := by
  refine h.step (extends_newBlock σ₁ label) [] (by simp)
    (fun c _ => spares_newBlock σ₁ label) ?_ fun c hc => .inl (List.mem_cons_of_mem _ hc)
  intro c hle hlt
  rw [blockCount_newBlock] at hlt
  have hc : c = ⟨σ₁.builder.blockCount⟩ := Flow.Block.ext_index (Nat.le_antisymm (Nat.le_of_lt_succ hlt) hle)
  rw [hc]
  exact List.mem_cons_self

/-- A step that makes no blocks and ends none. -/
theorem Since.quiet (h : Since σ σ₁ live) (e : Extends σ₁ σ₂)
    (hcount : σ₂.builder.blockCount = σ₁.builder.blockCount) (touched : List Block)
    (hown : ∀ c ∈ touched, σ.Own c) (hspares : ∀ c, c ∉ touched → Spares σ₁ σ₂ c) :
    Since σ σ₂ live := by
  refine h.step e touched hown hspares ?_ fun c hc => .inl hc
  intro c hle hlt
  rw [hcount] at hlt
  exact absurd hlt (Nat.not_lt.2 hle)

/-- A step that makes no blocks and ends the sealed block `b`. -/
theorem Since.ends (h : Since σ σ₁ live) (e : Extends σ₁ σ₂)
    (hcount : σ₂.builder.blockCount = σ₁.builder.blockCount) (touched : List Block)
    (hown : ∀ c ∈ touched, σ.Own c) (hspares : ∀ c, c ∉ touched → Spares σ₁ σ₂ c) {b : Block}
    (hsealed : σ₂.known.isSealed b = true) (hterm : (σ₂.terminator? b).isSome)
    (hlive : ∀ c ∈ live, c = b ∨ c ∈ live') : Since σ σ₂ live' := by
  refine h.step e touched hown hspares ?_ ?_
  · intro c hle hlt
    rw [hcount] at hlt
    exact absurd hlt (Nat.not_lt.2 hle)
  · intro c hc
    rcases hlive c hc with rfl | hmem
    · exact .inr ⟨hsealed, hterm⟩
    · exact .inl hmem

end

section

variable {σ : Plan} {c : Block} {closed : Bool} {sources : List Block}

theorem Awaits.enter (h : σ.Awaits c closed sources) {b : Block} (hne : c ≠ b) (s : List Block) :
    (σ.enter b s).Awaits c closed sources :=
  ⟨h.exists', (if_neg hne).trans h.spine, h.isSealed, h.preds⟩

end

/-! ## New blocks -/

/-- The block that will be made after `i` others. -/
def block (σ : Plan) (i : Nat) : Block := ⟨σ.builder.blockCount + i⟩

/-- The plan with further blocks. -/
def newBlocks (σ : Plan) : List String → Plan
  | [] => σ
  | label :: rest => (σ.newBlock label).newBlocks rest

theorem block_newBlock (σ : Plan) (label : String) (i : Nat) :
    (σ.newBlock label).block i = σ.block (i + 1) := by
  unfold block
  rw [blockCount_newBlock]
  congr 1
  omega

theorem valueCount_newBlocks (σ : Plan) (labels : List String) :
    (σ.newBlocks labels).builder.valueCount = σ.builder.valueCount := by
  induction labels generalizing σ with
  | nil => rfl
  | cons label rest ih => exact ih (σ.newBlock label)

theorem extends_newBlocks (σ : Plan) (labels : List String) : Extends σ (σ.newBlocks labels) := by
  induction labels generalizing σ with
  | nil => exact .rfl' σ
  | cons label rest ih => exact (extends_newBlock σ label).trans (ih _)

theorem block_inj {σ : Plan} {i j : Nat} : σ.block i = σ.block j ↔ i = j := by
  simp [block]

theorem own_block (σ : Plan) (i : Nat) : σ.Own (σ.block i) := .inr (Nat.le_add_right _ i)

/-- The current block is none of those that will be made. -/
theorem Sound.current_ne_block {σ : Plan} (h : σ.Sound) (i : Nat) : σ.current ≠ σ.block i :=
  ne_of_apply_ne Block.index fun he =>
    Nat.lt_irrefl _ (Nat.lt_of_le_of_lt (Nat.le_add_right _ i) (he.symm ▸ h.record.current))

/-- What holds when some blocks have been made. -/
structure Opened (σ σ' : Plan) (count : Nat) : Prop where
  ready : σ'.Ready
  extends' : Extends σ σ'
  current : σ'.current = σ.current
  valueCount : σ'.builder.valueCount = σ.builder.valueCount
  awaits : ∀ {i}, i < count → σ'.Awaits (σ.block i) false []
  since : Since σ σ' (σ.current :: (List.range count).map σ.block)
  spares : ∀ c, Spares σ σ' c

theorem Ready.newBlocks {σ : Plan} (hσ : σ.Ready) (labels : List String) :
    Opened σ (σ.newBlocks labels) labels.length := by
  induction labels generalizing σ with
  | nil => exact ⟨hσ, .rfl' σ, rfl, rfl, fun h => absurd h (Nat.not_lt_zero _), .start σ,
      fun _ => ⟨rfl, rfl, rfl, rfl, rfl⟩⟩
  | cons label rest ih =>
      have h := ih (hσ.newBlock label)
      have hfirst : (σ.newBlock label).Awaits (σ.block 0) false [] :=
        awaits_newBlock hσ.sound label
      have hcurrent : (σ.newBlock label).current = σ.current := rfl
      have hrange : (List.range (rest.length + 1)).map σ.block =
          σ.block 0 :: (List.range rest.length).map (σ.newBlock label).block := by
        rw [List.range_succ_eq_map, List.map_cons, List.map_map]
        simp [Function.comp_def, block_newBlock]
      constructor
      case ready => exact h.ready
      case extends' => exact (extends_newBlock σ label).trans h.extends'
      case current => exact h.current
      case valueCount => exact h.valueCount
      case awaits =>
        intro i hi
        cases i with
        | zero => exact hfirst.since (hσ.newBlock label).sound h.since
        | succ i =>
            rw [← block_newBlock σ label]
            exact h.awaits (Nat.lt_of_succ_lt_succ hi)
      case since =>
        rw [List.length_cons, hrange]
        refine ((Since.start σ).newBlock label).trans (.inl rfl) h.since ?_ ?_
        · intro c hc hne
          rcases List.mem_pair.1 hc with rfl | rfl
          · exact List.mem_cons_of_mem _ List.mem_cons_self
          · exact absurd rfl hne
        · intro c hc
          rcases List.mem_cons.1 hc with rfl | hmem
          · exact List.mem_cons_self
          · exact List.mem_cons_of_mem _ (List.mem_cons_of_mem _ hmem)
      case spares => exact fun c => (spares_newBlock σ label).trans (h.spares c)

/-- New blocks have their labels. -/
theorem label_newBlocks (σ : Plan) (labels : List String) (i : Nat) (hi : i < labels.length) :
    ((σ.newBlocks labels).builder.info (σ.block i)).label = labels[i] := by
  induction labels generalizing σ i with
  | nil => cases hi
  | cons label rest ih =>
      cases i with
      | zero =>
          have hlt : (σ.block 0).index < (σ.newBlock label).builder.blockCount :=
            Nat.lt_of_lt_of_eq (Nat.lt_succ_self _) (blockCount_newBlock ..).symm
          have hfresh : (σ.newBlock label).builder.info (σ.block 0) = Flow.BlockInfo.fresh label :=
            (Builder.info_newBlock ..).trans (if_pos rfl)
          rw [newBlocks, (extends_newBlocks (σ.newBlock label) rest).label hlt, hfresh]
          rfl
      | succ i =>
          rw [newBlocks, ← block_newBlock σ label]
          exact ih (σ.newBlock label) i (Nat.lt_of_succ_lt_succ hi)

/-- New blocks take nothing away. -/
theorem Opened.has {σ σ' : Plan} {count : Nat} (h : Opened σ σ' count) (hσ : σ.Ready) {v : Value}
    (hv : σ.Has σ.current v) : σ'.Has σ'.current v := by
  rw [h.current]
  exact hv.mono hσ.sound h.extends'

/-! ## Two ways on -/

/-- Two blocks are sealed. -/
inductive SealsBoth (σ : Plan) (first second : Block) : Plan → Prop
  | intro {d₁ d₂ : Draft}
      (h₁ : (Drafting.sealBlock first).on σ.record.draft = (.ok (), d₁))
      (h₂ : (Drafting.sealBlock second).on (σ.sealed first d₁).record.draft = (.ok (), d₂)) :
      SealsBoth σ first second ((σ.sealed first d₁).sealed second d₂)

/-- What holds when two blocks have been sealed. -/
structure Forked (σ σ' : Plan) (first second : Block) (sources : List Block) : Prop where
  sound : σ'.Sound
  extends' : Extends σ σ'
  atFirst : σ'.Awaits first true sources
  atSecond : σ'.Awaits second true sources
  current : σ'.current = σ.current
  blockCount : σ'.builder.blockCount = σ.builder.blockCount
  spares : ∀ c, c ≠ first → c ≠ second → Spares σ σ' c

theorem SealsBoth.forked {σ σ' : Plan} {first second : Block} {sources : List Block}
    (h : SealsBoth σ first second σ') (hσ : σ.Sound) (hne : first ≠ second)
    (hfirst : σ.Awaits first false sources) (hsecond : σ.Awaits second false sources) :
    Forked σ σ' first second sources := by
  obtain ⟨h₁, h₂⟩ := h
  obtain ⟨hsound₁, e₁, hfirst₁, hcurrent₁⟩ := hfirst.sealed hσ h₁
  have hspares₁ : ∀ c, c ≠ first → Spares σ _ c :=
    fun c => spares_sealed hσ hfirst.exists' h₁
  have hsecond₁ := hsecond.spared e₁ (hspares₁ second (Ne.symm hne))
  obtain ⟨hsound₂, e₂, hsecond₂, hcurrent₂⟩ := hsecond₁.sealed hsound₁ h₂
  have hspares₂ : ∀ c, c ≠ second → Spares _ _ c :=
    fun c => spares_sealed hsound₁ hsecond₁.exists' h₂
  obtain ⟨_, hs₁⟩ := Recording.searches_seal hσ.record hfirst.exists' h₁
  obtain ⟨_, hs₂⟩ := Recording.searches_seal hsound₁.record hsecond₁.exists' h₂
  constructor
  case sound => exact hsound₂
  case extends' => exact e₁.trans e₂
  case atFirst => exact hfirst₁.spared e₂ (hspares₂ first hne)
  case atSecond => exact hsecond₂
  case current => exact hcurrent₂.trans hcurrent₁
  case blockCount => exact hs₂.blockCount.trans hs₁.blockCount
  case spares => exact fun c hc hc' => (hspares₁ c hc).trans (hspares₂ c hc')

end Plan
namespace Plan

/-- Everything that happens in the block, and its end. -/
structure Ends (σ : Plan) (b : Block) (done : List Event) (t : Terminator) : Prop where
  script : σ.record.script b = done
  terminator : σ.terminator? b = some t

theorem Spares.ends {σ σ' : Plan} {b : Block} {done : List Event} {t : Terminator}
    (h : Spares σ σ' b) (hb : σ.Ends b done t) : σ'.Ends b done t :=
  ⟨h.script.trans hb.script, h.terminator.trans hb.terminator⟩

/-- What has an end and has been left stays as it is. -/
theorem Ends.mono {σ σ' : Plan} {b : Block} {done : List Event} {t : Terminator}
    (h : σ.Ends b done t) (hleft : b ≠ σ.current) (e : Extends σ σ') : σ'.Ends b done t :=
  ⟨(e.frozen h.terminator hleft).trans h.script, e.terminator h.terminator⟩

/-- The current block has got the end `t`, which has two targets, and these are sealed. -/
structure Branched (σ σ' : Plan) (done : List Event) (t : Terminator) (first second : Block) :
    Prop where
  sound : σ'.Sound
  extends' : Extends σ σ'
  atFirst : σ'.Awaits first true [σ.current]
  atSecond : σ'.Awaits second true [σ.current]
  current : σ'.current = σ.current
  blockCount : σ'.builder.blockCount = σ.builder.blockCount
  isSealed : σ'.known.isSealed σ.current = true
  ended : σ'.Ends σ.current done t
  spares : ∀ c, c ≠ σ.current → c ≠ first → c ≠ second → Spares σ σ' c

section

variable {σ σ₁ σ₂ τ : Plan} {first second : Block} {done : List Event} {t : Terminator}

/-- After an end with two targets both are sealed. -/
theorem Forked.branched (h : Forked σ₁ σ₂ first second [σ.current]) (hσ : σ.Ready)
    (e : Extends σ σ₁) (hfirst : σ.Awaits first false []) (hsecond : σ.Awaits second false [])
    (hcurrent : σ₁.current = σ.current) (hcount : σ₁.builder.blockCount = σ.builder.blockCount)
    (hended : σ₁.Ends σ.current done t)
    (hspares : ∀ c, c ≠ σ.current → c ∉ [first, second] → Spares σ σ₁ c) :
    Branched σ σ₂ done t first second := by
  have hne₁ := hfirst.ne_current hσ.sound
  have hne₂ := hsecond.ne_current hσ.sound
  have hspared := h.spares σ.current (Ne.symm hne₁) (Ne.symm hne₂)
  constructor
  case sound => exact h.sound
  case extends' => exact e.trans h.extends'
  case atFirst => exact h.atFirst
  case atSecond => exact h.atSecond
  case current => exact h.current.trans hcurrent
  case blockCount => exact h.blockCount.trans hcount
  case isSealed => exact (e.trans h.extends').isSealed hσ.isSealed
  case ended => exact hspared.ends hended
  case spares =>
    intro c hc hc₁ hc₂
    exact (hspares c hc (by simp [hc₁, hc₂])).trans (h.spares c hc₁ hc₂)

theorem count_pair {first second : Block} (hne : first ≠ second) :
    [first, second].count first = 1 ∧ [first, second].count second = 1 := by
  constructor
  · simp [Ne.symm hne]
  · simp [hne]

/-- The current block has got an end with two targets that go on waiting, and is not sealed yet. -/
structure Forking (σ σ₁ : Plan) (first second : Block) : Prop where
  sound : σ₁.Sound
  extends' : Extends σ σ₁
  atFirst : σ₁.Awaits first false [σ.current]
  atSecond : σ₁.Awaits second false [σ.current]

/-- Edges may lead to two blocks that wait. -/
theorem mayLeadBoth (hσ : σ.Sound) (hfirst : σ.Awaits first false [])
    (hsecond : σ.Awaits second false []) : σ.MayLead [first, second] := by
  refine mayLead hσ fun c hc => ?_
  rcases List.mem_pair.1 hc with rfl | rfl
  · exact ⟨_, hfirst⟩
  · exact ⟨_, hsecond⟩

theorem Ready.forkBranch (hσ : σ.Ready) {condition : Value}
    (hcondition : σ.Has σ.current condition) (hne : first ≠ second)
    (hfirst : σ.Awaits first false []) (hsecond : σ.Awaits second false []) :
    Forking σ (σ.terminate (.branch condition first second)) first second := by
  have hlead := mayLeadBoth hσ.sound hfirst hsecond
  exact ⟨hσ.sound.terminate hσ.isOpen hlead rfl (by simpa [endOperands] using hcondition),
    extends_terminate hσ.sound hσ.isOpen hlead, hfirst.terminate (count_pair hne).1,
    hsecond.terminate (count_pair hne).2⟩

theorem Ready.forkInvoke (hσ : σ.Ready) {callee : String} {arguments : List Value} {result : Ty}
    (harguments : ∀ u ∈ arguments, σ.Has σ.current u) (hne : first ≠ second)
    (hfirst : σ.Awaits first false []) (hsecond : σ.Awaits second false []) :
    Forking σ (σ.invoke callee arguments result first second) first second := by
  have hlead := mayLeadBoth hσ.sound hfirst hsecond
  exact ⟨hσ.sound.invoke hσ.isOpen hlead harguments, extends_invoke hσ.sound hσ.isOpen hlead,
    hfirst.invoke (count_pair hne).1, hsecond.invoke (count_pair hne).2⟩

/-- The current block branches to two blocks that wait. -/
theorem Ready.branch (hσ : σ.Ready) {condition : Value} (hcondition : σ.Has σ.current condition)
    (hne : first ≠ second) (hfirst : σ.Awaits first false []) (hsecond : σ.Awaits second false [])
    (h : SealsBoth (σ.terminate (.branch condition first second)) first second σ₂) :
    Branched σ σ₂ (σ.record.script σ.current) (.branch condition first second) first second := by
  obtain ⟨hsound, e, hfirst', hsecond'⟩ := hσ.forkBranch hcondition hne hfirst hsecond
  refine (h.forked hsound hne hfirst' hsecond').branched hσ e hfirst hsecond
    (Builder.current_terminate ..) (Builder.blockCount_terminate ..) ⟨rfl, ?_⟩ ?_
  · rw [terminator?_terminate hσ.sound, if_pos rfl]
  · exact fun c hc ht => spares_terminate hσ.sound hc ht

/-- The current block ends with a call that goes on in one of two blocks that wait. -/
theorem Ready.invoke (hσ : σ.Ready) {callee : String} {arguments : List Value} {result : Ty}
    (harguments : ∀ u ∈ arguments, σ.Has σ.current u) (hne : first ≠ second)
    (hfirst : σ.Awaits first false []) (hsecond : σ.Awaits second false [])
    (h : SealsBoth (σ.invoke callee arguments result first second) first second σ₂) :
    Branched σ σ₂ (σ.record.script σ.current ++ [.inst ⟨σ.builder.valueCount⟩])
      (.invoke ⟨σ.builder.valueCount⟩ first second) first second ∧
      σ₂.Has σ.current ⟨σ.builder.valueCount⟩ ∧
      Extends (σ.invoke callee arguments result first second) σ₂ := by
  have hforking : Forking σ (σ.invoke callee arguments result first second) first second :=
    hσ.forkInvoke harguments hne hfirst hsecond
  obtain ⟨hsound, e, hfirst', hsecond'⟩ := hforking
  have hforked := h.forked hsound hne hfirst' hsecond'
  refine ⟨?_, (has_invoke hσ.sound).mono hsound hforked.extends', hforked.extends'⟩
  refine hforked.branched hσ e hfirst hsecond
    (Builder.current_terminate ..) (Builder.blockCount_terminate ..) ⟨?_, ?_⟩ ?_
  · rw [script_invoke, Recording.happen_self]
  · rw [terminator?_invoke hσ.sound, if_pos rfl]
  · exact fun c hc ht => spares_invoke hσ.sound hc ht

/-- A branch finishes the block that it ends. -/
theorem Branched.since {live live' : List Block} (h : Branched σ σ₂ done t first second)
    (hs : Since τ σ live) (hcurrent : τ.Own σ.current) (hfirst : τ.Own first)
    (hsecond : τ.Own second) (hlive : ∀ c ∈ live, c = σ.current ∨ c ∈ live') :
    Since τ σ₂ live' := by
  refine hs.ends h.extends' h.blockCount [σ.current, first, second] ?_ ?_ h.isSealed
    (by rw [h.ended.terminator]; rfl) hlive
  · intro c hc
    simp only [List.mem_cons, List.not_mem_nil, or_false] at hc
    rcases hc with rfl | rfl | rfl
    · exact hcurrent
    · exact hfirst
    · exact hsecond
  · intro c hc
    simp only [List.mem_cons, List.not_mem_nil, or_false, not_or] at hc
    exact h.spares c hc.1 hc.2.1 hc.2.2

/-- Entering a block keeps count. -/
theorem Since.enter {live : List Block} (hs : Since τ σ live) (hσ : σ.Sound) {c : Block}
    (hspine : σ.spine c = []) (hc : τ.Own c) (s : List Block) : Since τ (σ.enter c s) live := by
  refine hs.quiet (extends_enter hσ hspine s) rfl [c] ?_ ?_
  · intro b hb
    rw [List.mem_singleton.1 hb]
    exact hc
  · exact fun b hb => spares_enter σ s fun h => hb (List.mem_singleton.2 h)

theorem spine_enter (σ : Plan) (c : Block) (s : List Block) :
    (σ.enter c s).spine (σ.enter c s).current = c :: s := if_pos rfl

/-- A part ends when the last live block is entered. -/
theorem Since.last {c : Block} (hs : Since τ σ [c]) (hσ : σ.Sound) (hspine : σ.spine c = [])
    (hc : τ.Own c) {s : List Block} (hsub : ∀ a ∈ τ.spine τ.current, a ∈ s) :
    Advance τ (σ.enter c s) where
  since := hs.enter hσ hspine hc s
  own := hc
  spine a ha := by
    rw [spine_enter]
    exact List.mem_cons_of_mem _ (hsub a ha)

/-- Sealing a block that waits keeps count. -/
theorem Since.sealed {live : List Block} (hs : Since τ σ live) (hσ : σ.Sound) {c : Block}
    {closed : Bool} {sources : List Block} (hwaits : σ.Awaits c closed sources) (hc : τ.Own c)
    {d : Draft} (hseal : (Drafting.sealBlock c).on σ.record.draft = (.ok (), d)) :
    Since τ (σ.sealed c d) live := by
  obtain ⟨-, e, -, -⟩ := hwaits.sealed hσ hseal
  obtain ⟨_, hsearch⟩ := Recording.searches_seal hσ.record hwaits.exists' hseal
  refine hs.quiet e hsearch.blockCount [c] ?_ ?_
  · intro b hb
    rw [List.mem_singleton.1 hb]
    exact hc
  · exact fun b hb => spares_sealed hσ hwaits.exists' hseal fun h => hb (List.mem_singleton.2 h)

/-- A block is entered, and what is done there ends. -/
theorem Since.finish {live live' : List Block} {c : Block} {s : List Block} (hs : Since τ σ live)
    (hσ : σ.Sound) (hspine : σ.spine c = []) (hc : τ.Own c) (h₂ : Since (σ.enter c s) σ₂ [])
    (hlive : ∀ b ∈ live, b = c ∨ b ∈ live') : Since τ σ₂ live' := by
  refine (hs.enter hσ hspine hc s).trans hc h₂ ?_ (by simp)
  intro b hb hne
  exact (hlive b hb).resolve_left hne

/-- What goes on and then ends has ended. -/
theorem Advance.finish (h : Advance σ σ₁) (h₂ : Since σ₁ σ₂ []) : Since σ σ₂ [] := by
  refine h.since.trans h.own h₂ ?_ (by simp)
  intro b hb hne
  exact absurd (List.mem_singleton.1 hb) hne

/-- An end that leads nowhere finishes its block. -/
theorem Ready.close (hσ : σ.Ready) {t : Terminator} (ht : t.successors = [])
    (hcall : endCall? (some t) = none) (hoperands : ∀ u ∈ endOperands t, σ.Has σ.current u) :
    (σ.terminate t).Sound ∧ Since σ (σ.terminate t) [] := by
  have hlead : σ.MayLead t.successors := by
    rw [ht]
    intro c hc
    cases hc
  have e := extends_terminate hσ.sound hσ.isOpen hlead
  refine ⟨hσ.sound.terminate hσ.isOpen hlead hcall hoperands, ?_⟩
  refine (Since.start σ).ends e (Builder.blockCount_terminate ..) [σ.current] ?_ ?_
    (e.isSealed hσ.isSealed) ?_ fun c hc => .inl (List.mem_singleton.1 hc)
  · intro b hb
    exact .inl (List.mem_singleton.1 hb)
  · intro b hb
    refine spares_terminate hσ.sound (fun h => hb (List.mem_singleton.2 h)) ?_
    rw [ht]
    simp
  · rw [terminator?_terminate hσ.sound, if_pos rfl]
    rfl

end

end Plan
namespace Plan

/-- After blocks have been made, the block that was current has an end with two of them as targets,
and these are sealed. -/
structure Parted (σ σ' : Plan) (done : List Event) (t : Terminator) (count i j : Nat) : Prop where
  sound : σ'.Sound
  since : Since σ σ' ((List.range count).map σ.block)
  atFirst : σ'.Awaits (σ.block i) true [σ.current]
  atSecond : σ'.Awaits (σ.block j) true [σ.current]
  others : ∀ {k}, k < count → k ≠ i → k ≠ j → σ'.Awaits (σ.block k) false []
  spine : σ'.spine σ.current = σ.spine σ.current
  ended : σ'.Ends σ.current done t

section

variable {σ σ₁ σ₂ σ₃ : Plan} {done : List Event} {t : Terminator} {count i j : Nat}

theorem Opened.parted (h : Opened σ σ₁ count) (hσ : σ.Ready) (hadvance : Advance σ₁ σ₂)
    (hcurrent : σ₂.current = σ.current)
    (hbranch : Branched σ₂ σ₃ done t (σ.block i) (σ.block j)) :
    Parted σ σ₃ done t count i j := by
  have hlive : ∀ c, c ∈ (List.range count).map σ.block → c ∈ σ₂.current ::
      (List.range count).map σ.block := fun c hc => List.mem_cons_of_mem _ hc
  have hsince : Since σ σ₂ (σ₂.current :: (List.range count).map σ.block) := by
    refine h.since.trans (.inl h.current) hadvance.since ?_ ?_
    · intro c hc hne
      rcases List.mem_cons.1 hc with rfl | hmem
      · exact absurd h.current.symm hne
      · exact hlive c hmem
    · intro c hc
      rw [List.mem_singleton.1 hc]
      exact List.mem_cons_self
  have hsince₃ := hbranch.since hsince (.inl hcurrent) (own_block σ i) (own_block σ j)
    fun c hc => List.mem_cons.1 hc
  constructor
  case sound => exact hbranch.sound
  case since => exact hsince₃
  case atFirst => exact hcurrent ▸ hbranch.atFirst
  case atSecond => exact hcurrent ▸ hbranch.atSecond
  case others =>
    intro k hk hki hkj
    have hwaits := (h.awaits hk).since h.ready.sound hadvance.since
    refine hwaits.spared hbranch.extends' (hbranch.spares _ ?_ ?_ ?_)
    · rw [hcurrent]
      exact (hσ.sound.current_ne_block k).symm
    · rw [Ne, block_inj]
      exact hki
    · rw [Ne, block_inj]
      exact hkj
  case spine => exact hsince₃.extends'.spine hσ.sound.used
  case ended => exact hcurrent ▸ hbranch.ended

/-- The current block branches to two new blocks. -/
theorem Opened.branch (h : Opened σ σ₁ count) (hσ : σ.Ready) {v : Value} (hready : σ₂.Ready)
    (hadvance : Advance σ₁ σ₂) (hv : σ₂.Has σ₂.current v) (hcurrent : σ₂.current = σ.current)
    (hi : i < count) (hj : j < count) (hne : i ≠ j)
    (fork : SealsBoth (σ₂.terminate (.branch v (σ.block i) (σ.block j))) (σ.block i) (σ.block j)
      σ₃) : Parted σ σ₃ (σ₂.record.script σ.current) (.branch v (σ.block i) (σ.block j)) count i j ∧
      Extends σ₂ σ₃ := by
  have hbranch : Branched σ₂ σ₃ _ _ _ _ := hready.branch hv ?_ ?_ ?_ fork
  rw [hcurrent] at hbranch
  exact ⟨h.parted hσ hadvance hcurrent hbranch, hbranch.extends'⟩
  · rw [Ne, block_inj]
    exact hne
  · exact (h.awaits hi).since h.ready.sound hadvance.since
  · exact (h.awaits hj).since h.ready.sound hadvance.since

/-- The current block ends with a call that goes on in new blocks. -/
theorem Opened.invoke (h : Opened σ σ₁ count) (hσ : σ.Ready) {callee : String}
    {arguments : List Value} {result : Ty} (harguments : ∀ u ∈ arguments, σ.Has σ.current u)
    (hi : i < count) (hj : j < count) (hne : i ≠ j)
    (fork : SealsBoth (σ₁.invoke callee arguments result (σ.block i) (σ.block j)) (σ.block i)
      (σ.block j) σ₃) : Parted σ σ₃ (σ.record.script σ.current ++ [.inst ⟨σ.builder.valueCount⟩])
        (.invoke ⟨σ.builder.valueCount⟩ (σ.block i) (σ.block j)) count i j ∧
      σ₃.Has σ.current ⟨σ.builder.valueCount⟩ ∧
      Extends (σ₁.invoke callee arguments result (σ.block i) (σ.block j)) σ₃ := by
  have hne' : σ.block i ≠ σ.block j := by
    rw [Ne, block_inj]
    exact hne
  obtain ⟨hbranch, hresult, e⟩ := h.ready.invoke (fun u hu => h.has hσ (harguments u hu)) hne'
    (h.awaits hi) (h.awaits hj) fork
  rw [h.current, h.valueCount] at hresult
  rw [h.current, h.valueCount, (h.spares _).script] at hbranch
  exact ⟨h.parted hσ (.rfl' σ₁) h.current hbranch, hresult, e⟩

end

end Plan

end Abacus.Lowering
