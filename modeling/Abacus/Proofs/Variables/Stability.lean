import Abacus.Proofs.Variables.Agreement
import Abacus.Proofs.Variables.Contents

/-!
# What stays as it is

Reads and sealings write all along the chains that they walk, for blocks far away and in graphs of any
shape. Still they write only where nothing has been written, and they give operands only to phis whose
turn it is. This module says so of every draft, and of work that fails as well.

* `Draft.Retains` — what a search leaves alone;
* `Upkeep.sealBlock` — what searches keep is kept when a block is sealed;
* `retains_upkeep`, `retains_read`, `retains_sealBlock` — searches leave it alone;
* `Recording.reads_stable` — a read can be repeated, a binding stays until it is written, and a phi of a
  sealed block has all the operands that it will ever get.
-/

namespace Abacus.Lowering

open Abacus.Flow (Value Block Ty Inst Terminator Builder BlockInfo ValueInfo)

/-! ## What a search leaves alone -/

/-- What stays on the way from `d₀` to `d`: the bindings, and all values but the phis that are `due` for
operands. A phi that waits for its block has waited before, or is new. -/
structure Draft.Retains (due : Value → Prop) (d₀ d : Draft) : Prop where
  value : ∀ {x c r}, d₀.known.value? x c = some r → d.known.value? x c = some r
  valueCount : d₀.builder.valueCount ≤ d.builder.valueCount
  valueInfo : ∀ {v}, v.index < d₀.builder.valueCount → ¬ due v →
    d.builder.valueInfo v = d₀.builder.valueInfo v
  block : ∀ {v}, v.index < d₀.builder.valueCount →
    (d.builder.valueInfo v).block = (d₀.builder.valueInfo v).block
  waiting : ∀ p ∈ d.known.incomplete, p ∈ d₀.known.incomplete ∨
    d₀.builder.valueCount ≤ p.phi.index ∧ p.phi.index < d.builder.valueCount ∧
      (d.builder.valueInfo p.phi).block = p.block

namespace Draft.Retains

variable {due : Value → Prop} {d₀ d : Draft} {x : SymbolId} {b : Block} {ty : Ty}
  {waiting : List OpenPhi} {blocks : List Block} {v : Value}

theorem refl (due : Value → Prop) (d : Draft) : d.Retains due d where
  value h := h
  valueCount := Nat.le_refl _
  valueInfo _ _ := rfl
  block _ := rfl
  waiting _ hp := .inl hp

/-- New bindings. -/
theorem bindAll (h : d₀.Retains due d) (hnew : ∀ c ∈ blocks, d.known.value? x c = none) :
    d₀.Retains due (d.bindAll x blocks v) where
  value hr := value?_bindAll_of_some hnew (h.value hr)
  valueCount := h.valueCount
  valueInfo := h.valueInfo
  block := h.block
  waiting p hp := h.waiting p (by rwa [incomplete_bindAll] at hp)

/-- A new phi. -/
theorem settle (h : d₀.Retains due d) (hnew : ∀ c ∈ blocks, d.known.value? x c = none)
    (hwaiting : ∀ p ∈ waiting, p.phi = ⟨d.builder.valueCount⟩ ∧ p.block = b) :
    d₀.Retains due (d.settle x b ty waiting blocks) where
  value hr := value?_settle_of_some hnew (h.value hr)
  valueCount := by
    rw [valueCount_settle]
    exact Nat.le_succ_of_le h.valueCount
  valueInfo hv hdue := by
    rw [valueInfo_settle (Nat.lt_of_lt_of_le hv h.valueCount)]
    exact h.valueInfo hv hdue
  block hv := by
    rw [valueInfo_settle (Nat.lt_of_lt_of_le hv h.valueCount)]
    exact h.block hv
  waiting p hp := by
    rw [incomplete_settle] at hp
    rw [valueCount_settle]
    rcases List.mem_append.1 hp with hp | hp
    · rcases h.waiting p hp with hp | ⟨hle, hlt, hblock⟩
      · exact .inl hp
      · refine .inr ⟨hle, Nat.lt_succ_of_lt hlt, ?_⟩
        rw [valueInfo_settle hlt]
        exact hblock
    · obtain ⟨hphi, hblock⟩ := hwaiting p hp
      refine .inr ⟨?_, ?_, ?_⟩ <;> rw [hphi]
      · exact h.valueCount
      · exact Nat.lt_succ_self _
      · rw [valueInfo_settle_new, hblock]

/-- An operand for a phi that is due, or that is new. -/
theorem addIncoming {p : OpenPhi} {q : Block} (h : d₀.Retains due d)
    (hp : due p.phi ∨ d₀.builder.valueCount ≤ p.phi.index) :
    d₀.Retains due (d.addIncoming p.phi q v) where
  value hr := h.value hr
  valueCount := by simpa [Draft.addIncoming] using h.valueCount
  valueInfo {u} hu hdue := by
    have hne : u ≠ p.phi := by
      rintro rfl
      rcases hp with hp | hp
      · exact hdue hp
      · omega
    rw [valueInfo_addIncoming_of_ne hne]
    exact h.valueInfo hu hdue
  block {u} hu := by
    rw [(frame_addIncoming u).2]
    exact h.block hu
  waiting o ho := by
    rw [(frame_addIncoming o.phi).2]
    rcases h.waiting o ho with ho | ⟨hle, hlt, hblock⟩
    · exact .inl ho
    · exact .inr ⟨hle, by simpa [Draft.addIncoming] using hlt, hblock⟩

end Draft.Retains

/-! ## Searches -/

namespace Drafting

variable {due : Value → Prop} {d₀ d : Draft}

/-- Sealing a block fills the phis that wait for it, and marks the block if that succeeds. -/
theorem Upkeep.sealBlock {within : Block → Prop} {may : OpenPhi → Prop} {I J : Draft → Prop}
    (h : Upkeep within may I) {b : Block} (hd : J d) (hrelease : I (release d b))
    (hmay : ∀ p ∈ d.known.incompleteOf b, may p) (hfailed : ∀ d', I d' → J d')
    (hfilled : ∀ d', I d' → J (close d' b)) : J ((Drafting.sealBlock b).on d).2 := by
  have hfill : I ((Drafting.fillAll (d.known.incompleteOf b).reverse).on (release d b)).2 :=
    h.fillAll hrelease fun p hp => hmay p (List.mem_reverse.1 hp)
  rw [on_sealBlock]
  split
  · exact hd
  · split
    · next d₁ hd₁ =>
      rw [hd₁] at hfill
      exact hfilled d₁ hfill
    · next hd₁ =>
      rw [hd₁] at hfill
      exact hfailed _ hfill

/-- Searches give operands to phis that are due and to new ones. -/
theorem retains_upkeep (due : Value → Prop) (d₀ : Draft) :
    Upkeep (fun _ => True) (fun p => due p.phi ∨ d₀.builder.valueCount ≤ p.phi.index)
      (d₀.Retains due) where
  back _ _ _ := trivial
  bindAll h hnew := h.bindAll hnew
  settle h hnew _ _ _ _ hwaiting := h.settle hnew fun p hp => by simp [hwaiting p hp]
  made h _ := .inr h.valueCount
  place _ := trivial
  addIncoming h hmay := h.addIncoming hmay

/-- A read retains all values that exist. -/
theorem retains_read (x : SymbolId) (b : Block) (d : Draft) :
    d.Retains (fun _ => False) ((read x b).on d).2 :=
  (retains_upkeep _ d).read (.refl _ d) x trivial

/-- Sealing a block retains all values but the phis that wait for it. -/
theorem retains_sealBlock (b : Block) (d : Draft) :
    d.Retains (fun v => ∃ p ∈ d.known.incompleteOf b, p.phi = v) ((sealBlock b).on d).2 := by
  refine (retains_upkeep _ d).sealBlock (.refl _ d) ?_ (fun p hp => .inl ⟨p, hp, rfl⟩) (fun _ => id)
    fun d' h => { h with value := h.value, valueInfo := h.valueInfo, block := h.block }
  exact { Draft.Retains.refl _ d with waiting := fun p hp => .inl (List.mem_of_mem_filter hp) }

/-- A search binds what it finds. -/
theorem value?_of_resolve {x : SymbolId} {b : Block} {v : Value} {made : List OpenPhi} {d' : Draft}
    (h : (resolve x b).on d = (.ok (v, made), d')) : d'.known.value? x b = some v := by
  rw [on_resolve] at h
  rcases hwalk : d.walkFrom x b with ⟨gone, u | stop | stop | _⟩ <;> rw [hwalk] at h
  case bound =>
    cases h
    obtain ⟨last, hchain, hends⟩ := Draft.walk_spec hwalk nofun
    -- The walk starts in `b`: it has gone on from there, or `b` is where it has found the value.
    rw [Draft.value?_bindAll]
    rcases hchain.start_mem with hmem | rfl
    · rw [if_pos ⟨rfl, hmem⟩]
    · split
      · rfl
      · exact hends
  case unsealed =>
    obtain ⟨last, hchain, rfl, -⟩ := Draft.walk_spec hwalk nofun
    dsimp only at h
    split at h
    · cases h
    · cases h
      rw [Draft.value?_settle, if_pos ⟨rfl, by simpa using hchain.start_mem⟩]
  case merge =>
    obtain ⟨last, hchain, rfl, -⟩ := Draft.walk_spec hwalk nofun
    dsimp only at h
    split at h
    · cases h
    · cases h
      rw [Draft.value?_settle, if_pos ⟨rfl, by simpa [or_comm] using hchain.start_mem⟩]
  case endless => cases h

/-- A read binds what it returns. -/
theorem value?_of_read {x : SymbolId} {b : Block} {r : Value} {d' : Draft}
    (h : (read x b).on d = (.ok r, d')) : d'.known.value? x b = some r := by
  obtain ⟨⟨v, made⟩, d₁, hresolve, h⟩ := on_bind_ok h
  obtain ⟨⟨⟩, d₂, hfill, h⟩ := on_bind_ok h
  cases h
  have hretains : d₁.Retains _ ((fillAll made).on d₁).2 :=
    (retains_upkeep _ d₁).fillAll (.refl (fun v => ∃ p ∈ made, p.phi = v) d₁)
      fun p hp => .inl ⟨p, hp, rfl⟩
  rw [hfill] at hretains
  exact hretains.value (value?_of_resolve hresolve)

/-- Reading a variable that is bound finds its value and changes nothing. -/
theorem on_read_of_bound {x : SymbolId} {b : Block} {r : Value}
    (h : d.known.value? x b = some r) : (read x b).on d = (.ok r, d) := by
  have hwalk : d.walkFrom x b = ([], .bound r) := by
    unfold Draft.walkFrom Draft.walk
    rw [h]
  unfold read
  rw [on_bind, on_resolve, hwalk]
  simp only [on_bind, on_fillAll_nil, on_pure]
  rfl

end Drafting

/-! ## Steps -/

/-- The phis that wait exist, each in the block for which it waits. -/
def Draft.Registers (d : Draft) : Prop :=
  ∀ p ∈ d.known.incomplete, p.phi.index < d.builder.valueCount ∧
    (d.builder.valueInfo p.phi).block = p.block

theorem Draft.Retains.registers {due : Value → Prop} {d d' : Draft} (h : d.Retains due d')
    (hd : d.Registers) : d'.Registers := by
  intro p hp
  rcases h.waiting p hp with hp | ⟨-, hlt, hblock⟩
  · obtain ⟨hlt, hblock⟩ := hd p hp
    exact ⟨Nat.lt_of_lt_of_le hlt h.valueCount, (h.block hlt).trans hblock⟩
  · exact ⟨hlt, hblock⟩

/-- A builder that keeps all values. -/
theorem Draft.Retains.of_builder {due : Value → Prop} {d : Draft} {builder : Builder}
    (hcount : d.builder.valueCount ≤ builder.valueCount)
    (hinfo : ∀ v, v.index < d.builder.valueCount →
      builder.valueInfo v = d.builder.valueInfo v) : d.Retains due { d with builder := builder } where
  value h := h
  valueCount := hcount
  valueInfo hv _ := hinfo _ hv
  block hv := by rw [hinfo _ hv]
  waiting _ hp := .inl hp

namespace Recording

variable {R : Recording} {op : Op} {x : SymbolId} {b : Block} {r : Value}

theorem draft_read (R : Recording) (x : SymbolId) (b : Block) :
    (R.step (.read x b)).draft = ((Drafting.read x b).on R.draft).2 := by
  rw [step]
  rcases (Drafting.read x b).on R.draft with ⟨e | v, d⟩ <;> rfl

theorem draft_sealBlock (R : Recording) (b : Block) :
    (R.step (.sealBlock b)).draft = ((Drafting.sealBlock b).on R.draft).2 := by
  rw [step]
  rcases (Drafting.sealBlock b).on R.draft with ⟨e | v, d⟩ <;> rfl

/-- The values that get operands in a step: the one named in it, and the phis that wait for a block which
is sealed now. -/
def Due (R : Recording) : Op → Value → Prop
  | .addIncoming phi _ _, v => v = phi
  | .sealBlock b, v =>
    R.draft.known.isSealed b = false ∧ ∃ p ∈ R.draft.known.incompleteOf b, p.phi = v
  | _, _ => False

/-- All steps but writes keep the bindings, and retain all values but those that are due. -/
theorem retains_step (hop : ∀ x b v, op ≠ .write x b v) :
    R.draft.Retains (R.Due op) (R.step op).draft := by
  cases op with
  | newBlock label => exact .of_builder (Nat.le_refl _) fun _ _ => rfl
  | setCurrent c => exact .of_builder (Nat.le_refl _) fun _ _ => rfl
  | push inst ty =>
    refine .of_builder (by simp) fun v hv => ?_
    rw [Builder.valueInfo_push, if_neg (Nat.ne_of_lt hv)]
  | terminate t => exact .of_builder (by simp) fun v _ => Builder.valueInfo_terminate _ t v
  | invoke callee arguments result normal unwind =>
    let called := (R.draft.builder.newValue (.call callee arguments) result R.draft.builder.current).2
    refine .of_builder ?_ fun v hv => ?_
    · show _ ≤ (called.terminate _).valueCount
      rw [Builder.valueCount_terminate]
      simp [called, Builder.newValue, Builder.valueCount]
    · show (called.terminate _).valueInfo v = _
      rw [Builder.valueInfo_terminate, Builder.valueInfo_newValue, if_neg (Nat.ne_of_lt hv)]
  | phi c ty =>
    refine .of_builder (by simp) fun v hv => ?_
    rw [Builder.valueInfo_phi, if_neg (Nat.ne_of_lt hv)]
  | addIncoming phi pred v =>
    exact (Draft.Retains.refl _ R.draft).addIncoming (p := ⟨⟨0⟩, pred, phi⟩) (.inl rfl)
  | declare y ty =>
    exact { Draft.Retains.refl _ R.draft with }
  | write y c v => exact absurd rfl (hop y c v)
  | read y c =>
    rw [draft_read]
    exact Drafting.retains_read y c R.draft
  | sealBlock c =>
    rw [draft_sealBlock]
    cases hsealed : R.draft.known.isSealed c with
    | true =>
      rw [Drafting.on_sealBlock, hsealed]
      exact .refl _ _
    | false =>
      have hretains := Drafting.retains_sealBlock c R.draft
      exact { hretains with
        value := hretains.value
        valueInfo := fun hv hdue => hretains.valueInfo hv fun h => hdue ⟨hsealed, h⟩
        block := hretains.block }

/-- A binding stays until it is written. -/
theorem value?_step (hop : ∀ v, op ≠ .write x b v) (h : R.draft.known.value? x b = some r) :
    (R.step op).draft.known.value? x b = some r := by
  by_cases hwrite : ∃ y c v, op = .write y c v
  · obtain ⟨y, c, v, rfl⟩ := hwrite
    have hne : ¬ (x = y ∧ b = c) := by
      rintro ⟨rfl, rfl⟩
      exact hop v rfl
    show (R.draft.known.write y c v).value? x b = some r
    rw [Variables.value?_write_eq, if_neg hne, h]
  · exact (retains_step fun y c v he => hwrite ⟨y, c, v, he⟩).value h

theorem value?_run {ops : List Op} (hops : ∀ op ∈ ops, ∀ v, op ≠ .write x b v)
    (h : R.draft.known.value? x b = some r) : (R.run ops).draft.known.value? x b = some r := by
  induction ops generalizing R with
  | nil => exact h
  | cons op rest ih =>
    exact ih (fun op' hop' => hops op' (List.mem_cons_of_mem _ hop'))
      (value?_step (hops op (by simp)) h)

theorem registers_step (hR : R.draft.Registers) : (R.step op).draft.Registers := by
  by_cases hwrite : ∃ y c v, op = .write y c v
  · obtain ⟨y, c, v, rfl⟩ := hwrite
    exact hR
  · exact (retains_step fun y c v he => hwrite ⟨y, c, v, he⟩).registers hR

theorem registers_run {ops : List Op} (hR : R.draft.Registers) : (R.run ops).draft.Registers := by
  induction ops generalizing R with
  | nil => exact hR
  | cons op rest ih => exact ih (registers_step hR)

/-- A value of a sealed block stays what it is, unless a step gives it an operand by name: no phi that
waits stands in a sealed block. -/
theorem valueInfo_step (hR : R.draft.Registers) {phi : Value}
    (hphi : phi.index < R.draft.builder.valueCount)
    (hsealed : R.draft.known.isSealed (R.draft.builder.valueInfo phi).block = true)
    (hop : ∀ pred v, op ≠ .addIncoming phi pred v) :
    (R.step op).draft.builder.valueInfo phi = R.draft.builder.valueInfo phi := by
  by_cases hwrite : ∃ y c v, op = .write y c v
  · obtain ⟨y, c, v, rfl⟩ := hwrite
    rfl
  · refine (retains_step fun y c v he => hwrite ⟨y, c, v, he⟩).valueInfo hphi fun hdue => ?_
    cases op with
    | addIncoming other pred v =>
      have hother : phi = other := hdue
      exact hop pred v (by rw [hother])
    | sealBlock c =>
      -- What is due has waited for `c`, and stands there, but its block is sealed.
      obtain ⟨hopen, p, hp, rfl⟩ := hdue
      obtain ⟨hp, hblock⟩ := List.mem_filter.1 hp
      rw [(hR p hp).2, of_decide_eq_true hblock, hopen] at hsealed
      cases hsealed
    | _ => exact hdue

/-- A variable that has been read in a block has that value there, and reading it again changes nothing,
until it is written in that block. No step but a write changes a binding, and only the one of its own
variable and block. In a run from the start, a phi of a sealed block has the operands that searches will
ever give it. -/
theorem reads_stable (name : String) (params : List Ty) (result : Ty) :
    (∀ (R : Recording) (x : SymbolId) (b : Block) (r : Value) (d : Draft) (ops : List Op),
      (Drafting.read x b).on R.draft = (.ok r, d) → (∀ op ∈ ops, ∀ v, op ≠ .write x b v) →
        (Drafting.read x b).on ((R.step (.read x b)).run ops).draft =
          (.ok r, ((R.step (.read x b)).run ops).draft)) ∧
    (∀ (R : Recording) (op : Op) (x : SymbolId) (b : Block) (r : Value),
      (∀ v, op ≠ .write x b v) → R.draft.known.value? x b = some r →
        (R.step op).draft.known.value? x b = some r) ∧
    ∀ (ops : List Op) (op : Op) (phi : Value), let R := (start name params result).run ops
      phi.index < R.draft.builder.valueCount →
      R.draft.known.isSealed (R.draft.builder.valueInfo phi).block = true →
      (∀ pred v, op ≠ .addIncoming phi pred v) →
        (R.step op).draft.builder.incoming phi = R.draft.builder.incoming phi := by
  refine ⟨?_, fun R op x b r => value?_step, ?_⟩
  · intro R x b r d ops hread hops
    have hbound : (R.step (.read x b)).draft.known.value? x b = some r := by
      rw [draft_read, hread]
      exact Drafting.value?_of_read hread
    exact Drafting.on_read_of_bound (value?_run hops hbound)
  · intro ops op phi R hphi hsealed hop
    have hregisters : R.draft.Registers := registers_run nofun
    exact Builder.incoming_congr (valueInfo_step hregisters hphi hsealed hop)

/-- The read in the loop can be repeated once the loop is closed. The phi that it made waited then, and
has its operands now: a further read leaves them, and what the entry has for the variable. -/
theorem reads_stable_loop :
    let after := (start "loop" [] .int).run
      (loopFront ++ [.read ⟨0⟩ ⟨1⟩, .terminate (.branch ⟨0⟩ ⟨1⟩ ⟨2⟩), .sealBlock ⟨1⟩])
    (Drafting.read ⟨0⟩ ⟨1⟩).on after.draft = (.ok ⟨2⟩, after.draft) ∧
      (after.step (.read ⟨0⟩ ⟨2⟩)).draft.known.value? ⟨0⟩ ⟨0⟩ = some ⟨0⟩ ∧
      (after.step (.read ⟨0⟩ ⟨2⟩)).draft.builder.incoming ⟨2⟩ = [(⟨0⟩, ⟨0⟩), (⟨1⟩, ⟨2⟩)] := by
  obtain ⟨hread, hvalue, hoperands⟩ := reads_stable "loop" [] .int
  refine ⟨hread ((start "loop" [] .int).run loopFront) ⟨0⟩ ⟨1⟩ ⟨2⟩ _
    [.terminate (.branch ⟨0⟩ ⟨1⟩ ⟨2⟩), .sealBlock ⟨1⟩] rfl (by simp), hvalue _ _ _ _ _ nofun rfl, ?_⟩
  exact (hoperands _ (.read ⟨0⟩ ⟨2⟩) ⟨2⟩ (by decide +kernel) (by decide +kernel) nofun).trans rfl

end Recording

end Abacus.Lowering
