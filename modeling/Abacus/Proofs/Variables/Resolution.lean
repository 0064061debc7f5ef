import Abacus.Lowering.Draft
import Abacus.Proofs.Flow.Building

/-!
# Reading variables: what the search finds and what it leaves behind

`Drafting.read` and `Drafting.sealBlock` extend a draft. This module says how.

* `Draft.OnEntry` — the value that a variable has on entering a block: a phi of the block that was
  made for the variable, or the value at the end of the only predecessor;
* `Draft.Coherent` — the bookkeeping of the phis: each phi that was made for a variable waits for
  its block to be sealed, or waits for its operands, or has them in the order of the predecessors;
* `Draft.Grows` — what a search may change: it adds phis and bindings, and gives operands to phis;
  a binding that exists stays as it is;
* `resolve_spec`, `fill_spec`, `read_spec`, `seal_spec` — the operations keep the first and stay
  within the second.

The induction of `walk_spec` is on the number of steps, that of `fill_spec` on the number of phis
that may still be filled.
-/

namespace Abacus.Lowering

open Abacus.Flow (Value Block Ty Inst Terminator Builder BlockInfo ValueInfo)

/-! ## Looking up what is known -/

namespace Variables

/-- The variable that a phi was made for. -/
def owner? (known : Variables) (v : Value) : Option SymbolId := known.owners[v]?

theorem value?_write_eq (known : Variables) (x y : SymbolId) (b c : Block) (v : Value) :
    (known.write x b v).value? y c = if y = x ∧ c = b then some v else known.value? y c := by
  split
  · next h =>
    rw [h.1, h.2]
    exact known.value?_write x b v
  · next h =>
    refine known.value?_write_of_ne v fun e => h ?_
    cases e
    exact ⟨rfl, rfl⟩

theorem value?_writeAll (x y : SymbolId) (c : Block) (v : Value) (blocks : List Block)
    (known : Variables) : (known.writeAll x blocks v).value? y c =
      if y = x ∧ c ∈ blocks then some v else known.value? y c := by
  induction blocks generalizing known with
  | nil => simp [writeAll]
  | cons b rest ih =>
      have step : known.writeAll x (b :: rest) v = (known.write x b v).writeAll x rest v := rfl
      rw [step, ih, value?_write_eq]
      by_cases hy : y = x
      · by_cases hc : c ∈ rest <;> by_cases hb : c = b <;> simp [hy, hc, hb]
      · simp [hy]

/-- What binding a value for several blocks leaves alone. -/
theorem frame_writeAll (x : SymbolId) (v : Value) (blocks : List Block) (known : Variables) :
    let after := known.writeAll x blocks v
    after.incomplete = known.incomplete ∧ after.sealedBlocks = known.sealedBlocks ∧
      after.types = known.types ∧ after.owners = known.owners := by
  induction blocks generalizing known with
  | nil => simp [writeAll]
  | cons b rest ih => exact ih (known.write x b v)

theorem owner?_own (known : Variables) (phi v : Value) (x : SymbolId) :
    (known.own phi x).owner? v = if v = phi then some x else known.owner? v := by
  unfold owner? own
  rw [Std.TreeMap.getElem?_insert]
  by_cases h : v = phi
  · simp [h]
  · have h' : phi ≠ v := fun e => h e.symm
    simp [h, h']

end Variables

namespace Draft

/-- The value that a variable has on entering a block: a phi that was made for it there, or its
value at the end of the only predecessor of a sealed block. -/
inductive OnEntry (d : Draft) (x : SymbolId) (b : Block) : Value → Prop
  | phi {v : Value} : v ∈ (d.builder.info b).phis → d.known.owner? v = some x → OnEntry d x b v
  | chain {v : Value} {q : Block} : d.known.isSealed b = true → d.builder.preds b = [q] →
      d.known.value? x q = some v → OnEntry d x b v

/-- The phi has one operand for each predecessor, in their order, and each is what the variable has
at the end of that predecessor. -/
def Filled (d : Draft) (x : SymbolId) (b : Block) (phi : Value) : Prop :=
  (d.builder.incoming phi).map Prod.fst = d.builder.preds b ∧
    ∀ p ∈ d.builder.incoming phi, d.known.value? x p.1 = some p.2

/-- What is in hand while phis get operands: those that wait for their turn, the one whose turn it
is with the predecessors that it has operands for, and a block that is about to be sealed. -/
structure Agenda where
  pending : List OpenPhi
  front? : Option (OpenPhi × List Block)
  closing? : Option Block

namespace Agenda

/-- Nothing is in hand. -/
def none : Agenda := ⟨[], .none, .none⟩

/-- The phis in hand. -/
def phis (agenda : Agenda) : List OpenPhi := (agenda.front?.map Prod.fst).toList ++ agenda.pending

end Agenda

/-- The bookkeeping of phis is in order: each phi that was made for a variable waits for its block
to be sealed, or is in hand, or has all its operands. -/
structure Coherent (d : Draft) (agenda : Agenda) : Prop where
  owned : ∀ {v x}, d.known.owner? v = some x →
    v.index < d.builder.valueCount ∧ (d.builder.valueInfo v).block.index < d.builder.blockCount ∧
      v ∈ (d.builder.info (d.builder.valueInfo v).block).phis ∧
      d.known.type? x = some (d.builder.ty v) ∧
      (d.known.value? x (d.builder.valueInfo v).block).isSome ∧
      ∃ incoming, (d.builder.valueInfo v).inst = .phi incoming
  stage : ∀ {v x}, d.known.owner? v = some x →
    (⟨x, (d.builder.valueInfo v).block, v⟩ ∈ d.known.incomplete ∧
        d.known.isSealed (d.builder.valueInfo v).block = false) ∨
      ((d.known.isSealed (d.builder.valueInfo v).block = true ∨
          agenda.closing? = some (d.builder.valueInfo v).block) ∧
        (⟨x, (d.builder.valueInfo v).block, v⟩ ∈ agenda.phis ∨
          d.Filled x (d.builder.valueInfo v).block v))
  waiting : ∀ p ∈ d.known.incomplete ++ agenda.phis, d.known.owner? p.phi = some p.var ∧
    (d.builder.valueInfo p.phi).block = p.block
  empty : ∀ p ∈ d.known.incomplete ++ agenda.pending, d.builder.incoming p.phi = []
  front : ∀ p done, agenda.front? = some (p, done) →
    (d.builder.incoming p.phi).map Prod.fst = done ∧
      ∀ o ∈ d.builder.incoming p.phi, d.known.value? p.var o.1 = some o.2
  unsealed : ∀ p ∈ d.known.incomplete, d.known.isSealed p.block = false
  nodup : ((d.known.incomplete ++ agenda.phis).map OpenPhi.phi).Nodup
  exists_of_sealed : ∀ {b}, d.known.isSealed b = true → b.index < d.builder.blockCount

/-- A value that a variable has at the end of a block after a search: one that it had before, a
phi of the block, or one that came along a chain. -/
inductive Arrives (before after : Draft) (x : SymbolId) : Block → Value → Prop
  | kept {b v} : before.known.value? x b = some v → Arrives before after x b v
  | phi {b v} : v ∈ (after.builder.info b).phis → after.known.owner? v = some x →
      Arrives before after x b v
  | chain {b q v} : after.known.isSealed b = true → after.builder.preds b = [q] →
      Arrives before after x q v → Arrives before after x b v

/-- A search may change a draft in these ways only. `P` holds of the variables and blocks that the
search goes through: new phis and new bindings stand there, where nothing was known before. -/
structure Grows (P : SymbolId → Block → Prop) (d d' : Draft) : Prop where
  current : d'.builder.current = d.builder.current
  name : d'.builder.function.name = d.builder.function.name
  params : d'.builder.function.params = d.builder.function.params
  result : d'.builder.function.result = d.builder.function.result
  blockCount : d'.builder.blockCount = d.builder.blockCount
  valueCount : d.builder.valueCount ≤ d'.builder.valueCount
  info : ∀ c, ∃ new, d'.builder.info c =
      { d.builder.info c with phis := (d.builder.info c).phis ++ new } ∧
    ∀ v ∈ new, d.builder.valueCount ≤ v.index ∧ v.index < d'.builder.valueCount ∧
      (d'.builder.valueInfo v).block = c ∧
      ∃ x, d'.known.owner? v = some x ∧ d.known.value? x c = none ∧ P x c ∧
        (d.known.isSealed c = true → ∀ q, d.builder.preds c ≠ [q])
  valueInfo : ∀ v, v.index < d.builder.valueCount →
    d'.builder.valueInfo v = d.builder.valueInfo v ∨
      (d.known.owner? v).isSome ∧ d'.builder.ty v = d.builder.ty v ∧
        (d'.builder.valueInfo v).block = (d.builder.valueInfo v).block
  types : d'.known.types = d.known.types
  sealedBlocks : d'.known.sealedBlocks = d.known.sealedBlocks
  owner : ∀ {v x}, d.known.owner? v = some x → d'.known.owner? v = some x
  newOwner : ∀ {v x}, d'.known.owner? v = some x →
    d.known.owner? v = some x ∨ d.builder.valueCount ≤ v.index
  value : ∀ {x c r}, d.known.value? x c = some r → d'.known.value? x c = some r
  newValue : ∀ {x c r}, d.known.value? x c = none → d'.known.value? x c = some r →
    P x c ∧ d'.OnEntry x c r
  arrives : ∀ {x c r}, d'.known.value? x c = some r → Arrives d d' x c r
  incomplete : ∀ p ∈ d.known.incomplete, p ∈ d'.known.incomplete
  newIncomplete : ∀ p ∈ d'.known.incomplete,
    p ∈ d.known.incomplete ∨ d.known.value? p.var p.block = none ∧ P p.var p.block

namespace Grows

variable {P : SymbolId → Block → Prop} {d d₁ d₂ : Draft}

theorem rfl' (P : SymbolId → Block → Prop) (d : Draft) : Grows P d d where
  current := rfl
  name := rfl
  params := rfl
  result := rfl
  blockCount := rfl
  valueCount := Nat.le_refl _
  info c := ⟨[], by simp, by simp⟩
  valueInfo _ _ := .inl rfl
  types := rfl
  sealedBlocks := rfl
  owner h := h
  newOwner h := .inl h
  value h := h
  newValue h h' := absurd (h.symm.trans h') (by simp)
  arrives h := .kept h
  incomplete _ h := h
  newIncomplete _ h := .inl h

theorem preds (h : Grows P d d₁) (c : Block) : d₁.builder.preds c = d.builder.preds c := by
  obtain ⟨new, hinfo, -⟩ := h.info c
  show (d₁.builder.info c).preds = _
  rw [hinfo]
  rfl

theorem isSealed (h : Grows P d d₁) (c : Block) :
    d₁.known.isSealed c = d.known.isSealed c := by
  simp [Variables.isSealed, h.sealedBlocks]

theorem phis_subset (h : Grows P d d₁) {c : Block} {v : Value}
    (hv : v ∈ (d.builder.info c).phis) : v ∈ (d₁.builder.info c).phis := by
  obtain ⟨new, hinfo, -⟩ := h.info c
  rw [hinfo]
  exact List.mem_append_left _ hv

theorem block_eq (h : Grows P d d₁) {v : Value} (hv : v.index < d.builder.valueCount) :
    (d₁.builder.valueInfo v).block = (d.builder.valueInfo v).block := by
  rcases h.valueInfo v hv with he | ⟨-, -, he⟩
  · rw [he]
  · exact he

theorem ty_eq (h : Grows P d d₁) {v : Value} (hv : v.index < d.builder.valueCount) :
    d₁.builder.ty v = d.builder.ty v := by
  rcases h.valueInfo v hv with he | ⟨-, he, -⟩
  · show (d₁.builder.valueInfo v).ty = _
    rw [he]
    rfl
  · exact he

theorem unbound (h : Grows P d d₁) {x : SymbolId} {c : Block}
    (hn : d₁.known.value? x c = none) : d.known.value? x c = none := by
  cases hv : d.known.value? x c with
  | none => rfl
  | some r => exact absurd (h.value hv) (by simp [hn])

/-- What a variable has on entering a block stays. -/
theorem onEntry (h : Grows P d d₁) {x : SymbolId} {c : Block} {v : Value}
    (hv : d.OnEntry x c v) : d₁.OnEntry x c v := by
  cases hv with
  | phi hmem howner => exact .phi (h.phis_subset hmem) (h.owner howner)
  | chain hsealed hpreds hvalue =>
      exact .chain (by rw [h.isSealed]; exact hsealed) (by rw [h.preds]; exact hpreds)
        (h.value hvalue)

theorem arrives_of_arrives (h₁ : Grows P d d₁) (h₂ : Grows P d₁ d₂) {x : SymbolId} {c : Block}
    {v : Value} (hv : Arrives d₁ d₂ x c v) : Arrives d d₂ x c v := by
  have lift : ∀ {c v}, Arrives d d₁ x c v → Arrives d d₂ x c v := by
    intro c v hv
    induction hv with
    | kept hvalue => exact .kept hvalue
    | phi hmem howner => exact .phi (h₂.phis_subset hmem) (h₂.owner howner)
    | chain hsealed hpreds _ ih =>
        exact .chain (by rw [h₂.isSealed]; exact hsealed) (by rw [h₂.preds]; exact hpreds) ih
  induction hv with
  | kept hvalue => exact lift (h₁.arrives hvalue)
  | phi hmem howner => exact .phi hmem howner
  | chain hsealed hpreds _ ih => exact .chain hsealed hpreds ih

theorem trans (h₁ : Grows P d d₁) (h₂ : Grows P d₁ d₂) : Grows P d d₂ where
  current := h₂.current.trans h₁.current
  name := h₂.name.trans h₁.name
  params := h₂.params.trans h₁.params
  result := h₂.result.trans h₁.result
  blockCount := h₂.blockCount.trans h₁.blockCount
  valueCount := Nat.le_trans h₁.valueCount h₂.valueCount
  info c := by
    obtain ⟨new₁, hinfo₁, hnew₁⟩ := h₁.info c
    obtain ⟨new₂, hinfo₂, hnew₂⟩ := h₂.info c
    refine ⟨new₁ ++ new₂, by rw [hinfo₂, hinfo₁, List.append_assoc], fun v hv => ?_⟩
    rcases List.mem_append.1 hv with hv | hv
    · obtain ⟨hle, hlt, hblock, x, howner, hrest⟩ := hnew₁ v hv
      exact ⟨hle, Nat.lt_of_lt_of_le hlt h₂.valueCount, by rw [h₂.block_eq hlt]; exact hblock,
        x, h₂.owner howner, hrest⟩
    · obtain ⟨hle, hlt, hblock, x, howner, hnone, hP, hmerge⟩ := hnew₂ v hv
      refine ⟨Nat.le_trans h₁.valueCount hle, hlt, hblock, x, howner, h₁.unbound hnone, hP, ?_⟩
      intro hsealed q
      have := hmerge (by rw [h₁.isSealed]; exact hsealed) q
      rwa [h₁.preds] at this
  valueInfo v hv := by
    have hv₁ : v.index < d₁.builder.valueCount := Nat.lt_of_lt_of_le hv h₁.valueCount
    rcases h₂.valueInfo v hv₁ with he | ⟨howner, hty, hblock⟩
    · rcases h₁.valueInfo v hv with he' | ⟨howner, hty, hblock⟩
      · exact .inl (he.trans he')
      · refine .inr ⟨howner, ?_, by rw [he]; exact hblock⟩
        show (d₂.builder.valueInfo v).ty = _
        rw [he]
        exact hty
    · refine .inr ⟨?_, hty.trans (h₁.ty_eq hv), hblock.trans (h₁.block_eq hv)⟩
      obtain ⟨x, hx⟩ := Option.isSome_iff_exists.1 howner
      rcases h₁.newOwner hx with h | h
      · simp [h]
      · exact absurd hv (Nat.not_lt.2 h)
  types := h₂.types.trans h₁.types
  sealedBlocks := h₂.sealedBlocks.trans h₁.sealedBlocks
  owner h := h₂.owner (h₁.owner h)
  newOwner h := by
    rcases h₂.newOwner h with h | h
    · exact h₁.newOwner h
    · exact .inr (Nat.le_trans h₁.valueCount h)
  value h := h₂.value (h₁.value h)
  newValue {x c r} hnone hsome := by
    cases hmid : d₁.known.value? x c with
    | none => exact h₂.newValue hmid hsome
    | some r' =>
        have hr : r' = r := Option.some.inj ((h₂.value hmid).symm.trans hsome)
        obtain ⟨hP, hentry⟩ := h₁.newValue hnone hmid
        exact ⟨hP, hr ▸ h₂.onEntry hentry⟩
  arrives hsome := h₁.arrives_of_arrives h₂ (h₂.arrives hsome)
  incomplete p hp := h₂.incomplete p (h₁.incomplete p hp)
  newIncomplete p hp := by
    rcases h₂.newIncomplete p hp with h | ⟨hnone, hP⟩
    · exact h₁.newIncomplete p h
    · exact .inr ⟨h₁.unbound hnone, hP⟩

end Grows

/-! ## The walk -/

/-- The blocks `gone` lead backwards from the first block to the last, each through its only
predecessor, and the variable has no value in any of them. -/
def Chain (d : Draft) (x : SymbolId) : Block → List Block → Block → Prop
  | b, [], last => b = last
  | b, c :: rest, last => c = b ∧ d.known.value? x b = none ∧ d.known.isSealed b = true ∧
      ∃ q, d.builder.preds b = [q] ∧ Chain d x q rest last

/-- How a walk may end at a block. -/
def EndsAt (d : Draft) (x : SymbolId) (last : Block) : WalkEnd → Prop
  | .bound v => d.known.value? x last = some v
  | .unsealed c => c = last ∧ d.known.value? x last = none ∧ d.known.isSealed last = false
  | .merge c => c = last ∧ d.known.value? x last = none ∧ d.known.isSealed last = true ∧
      ∀ q, d.builder.preds last ≠ [q]
  | .endless => False

theorem walk_spec {d : Draft} {x : SymbolId} {steps : Nat} {b : Block} {gone : List Block}
    {stop : WalkEnd} (h : d.walk x steps b = (gone, stop)) (hstop : stop ≠ .endless) :
    ∃ last, d.Chain x b gone last ∧ d.EndsAt x last stop := by
  induction steps generalizing b gone with
  | zero =>
      rw [walk] at h
      cases h
      exact absurd rfl hstop
  | succ steps ih =>
      rw [walk] at h
      split at h
      · next v hv =>
        cases h
        exact ⟨b, rfl, hv⟩
      · next hnone =>
        split at h
        · next hsealed =>
          split at h
          · next q hq =>
            rcases hrest : d.walk x steps q with ⟨gone', stop'⟩
            rw [hrest] at h
            cases h
            obtain ⟨last, hchain, hends⟩ := ih hrest
            exact ⟨last, ⟨rfl, hnone, hsealed, q, hq, hchain⟩, hends⟩
          · next hq =>
            cases h
            exact ⟨b, rfl, rfl, hnone, hsealed, hq⟩
        · next hsealed =>
          cases h
          exact ⟨b, rfl, rfl, hnone, by simpa using hsealed⟩

/-- Each block of a chain leads to another block of it or to the last. -/
theorem Chain.step {d : Draft} {x : SymbolId} {b last : Block} {gone : List Block}
    (h : d.Chain x b gone last) {c : Block} (hc : c ∈ gone) :
    d.known.value? x c = none ∧ d.known.isSealed c = true ∧
      ∃ q, d.builder.preds c = [q] ∧ (q ∈ gone ∨ q = last) := by
  induction gone generalizing b with
  | nil => simp at hc
  | cons c' rest ih =>
      obtain ⟨rfl, hnone, hsealed, q, hq, hrest⟩ := h
      rcases List.mem_cons.1 hc with rfl | hc
      · refine ⟨hnone, hsealed, q, hq, ?_⟩
        cases rest with
        | nil => exact .inr hrest
        | cons e rest => exact .inl (by simp [hrest.1])
      · obtain ⟨h1, h2, q', hq', hmem⟩ := ih hrest hc
        refine ⟨h1, h2, q', hq', ?_⟩
        rcases hmem with h | h
        · exact .inl (List.mem_cons_of_mem _ h)
        · exact .inr h

/-- A property that goes backwards through a search holds all along a chain. -/
theorem Chain.all {d : Draft} {x : SymbolId} {P : Block → Prop}
    (hP : ∀ c q, P c → d.known.value? x c = none → d.known.isSealed c = true →
      q ∈ d.builder.preds c → P q) {b last : Block} {gone : List Block}
    (h : d.Chain x b gone last) (hb : P b) : P last ∧ ∀ c ∈ gone, P c := by
  induction gone generalizing b with
  | nil => exact ⟨h ▸ hb, by simp⟩
  | cons c rest ih =>
      obtain ⟨rfl, hnone, hsealed, q, hq, hrest⟩ := h
      obtain ⟨hlast, hall⟩ := ih hrest (hP c q hb hnone hsealed (by simp [hq]))
      refine ⟨hlast, fun e he => ?_⟩
      rcases List.mem_cons.1 he with rfl | he
      · exact hb
      · exact hall e he

/-- A chain starts at its first block, or at its last when it is empty. -/
theorem Chain.start_mem {d : Draft} {x : SymbolId} {b last : Block} {gone : List Block}
    (h : d.Chain x b gone last) : b ∈ gone ∨ b = last := by
  cases gone with
  | nil => exact .inr h
  | cons c rest => exact .inl (by simp [h.1])

end Draft

/-! ## Binding along a chain -/

namespace Draft

/-- A value that arrives at the end of a chain arrives all along it. -/
theorem Chain.arrives {d d₀ d' : Draft} {x : SymbolId} {b last : Block} {gone : List Block}
    {v : Value} (h : d.Chain x b gone last)
    (hpreds : ∀ c, d'.builder.preds c = d.builder.preds c)
    (hsealed : ∀ c, d'.known.isSealed c = d.known.isSealed c) (hlast : Arrives d₀ d' x last v) :
    ∀ c ∈ gone, Arrives d₀ d' x c v := by
  induction gone generalizing b with
  | nil => simp
  | cons c rest ih =>
      obtain ⟨rfl, -, hs, q, hq, hrest⟩ := h
      have hall := ih hrest
      intro e he
      rcases List.mem_cons.1 he with rfl | he
      · refine .chain ((hsealed _).trans hs) ((hpreds _).trans hq) ?_
        rcases hrest.start_mem with hmem | rfl
        · exact hall q hmem
        · exact hlast
      · exact hall e he

/-- The draft with a value bound in the blocks that a walk went through. -/
def bindAll (d : Draft) (x : SymbolId) (blocks : List Block) (v : Value) : Draft :=
  { d with known := d.known.writeAll x blocks v }

theorem value?_bindAll (d : Draft) (x y : SymbolId) (blocks : List Block) (c : Block) (v : Value) :
    (d.bindAll x blocks v).known.value? y c =
      if y = x ∧ c ∈ blocks then some v else d.known.value? y c :=
  Variables.value?_writeAll x y c v blocks d.known

theorem isSealed_bindAll (d : Draft) (x : SymbolId) (blocks : List Block) (v : Value) (c : Block) :
    (d.bindAll x blocks v).known.isSealed c = d.known.isSealed c := by
  simp [bindAll, Variables.isSealed, (Variables.frame_writeAll x v blocks d.known).2.1]

theorem type?_bindAll (d : Draft) (x y : SymbolId) (blocks : List Block) (v : Value) :
    (d.bindAll x blocks v).known.type? y = d.known.type? y := by
  simp [bindAll, Variables.type?, (Variables.frame_writeAll x v blocks d.known).2.2.1]

theorem owner?_bindAll (d : Draft) (x : SymbolId) (blocks : List Block) (v u : Value) :
    (d.bindAll x blocks v).known.owner? u = d.known.owner? u := by
  simp [bindAll, Variables.owner?, (Variables.frame_writeAll x v blocks d.known).2.2.2]

theorem incomplete_bindAll (d : Draft) (x : SymbolId) (blocks : List Block) (v : Value) :
    (d.bindAll x blocks v).known.incomplete = d.known.incomplete :=
  (Variables.frame_writeAll x v blocks d.known).1

/-- Binding a variable where it had no value keeps what it had elsewhere. -/
theorem value?_bindAll_of_some {d : Draft} {x : SymbolId} {blocks : List Block} {v : Value}
    (hnew : ∀ c ∈ blocks, d.known.value? x c = none) {y : SymbolId} {c : Block} {r : Value}
    (h : d.known.value? y c = some r) : (d.bindAll x blocks v).known.value? y c = some r := by
  rw [value?_bindAll, if_neg, h]
  rintro ⟨rfl, hc⟩
  exact absurd (hnew c hc) (by simp [h])

/-- New bindings where there were none leave the bookkeeping of phis as it is. -/
theorem Coherent.bindAll {d : Draft} {agenda : Agenda} (h : d.Coherent agenda) {x : SymbolId}
    {blocks : List Block} {v : Value} (hnew : ∀ c ∈ blocks, d.known.value? x c = none) :
    (d.bindAll x blocks v).Coherent agenda where
  owned {u y} howner := by
    rw [owner?_bindAll] at howner
    obtain ⟨h1, h2, h3, h4, h5, h6⟩ := h.owned howner
    obtain ⟨r, hr⟩ := Option.isSome_iff_exists.1 h5
    exact ⟨h1, h2, h3, by rw [type?_bindAll]; exact h4,
      Option.isSome_iff_exists.2 ⟨r, value?_bindAll_of_some hnew hr⟩, h6⟩
  stage {u y} howner := by
    rw [owner?_bindAll] at howner
    rw [incomplete_bindAll, isSealed_bindAll]
    rcases h.stage howner with hw | ⟨hs, hp | ⟨hf, hv⟩⟩
    · exact .inl hw
    · exact .inr ⟨hs, .inl hp⟩
    · exact .inr ⟨hs, .inr ⟨hf, fun o ho => value?_bindAll_of_some hnew (hv o ho)⟩⟩
  waiting p hp := by
    rw [incomplete_bindAll] at hp
    rw [owner?_bindAll]
    exact h.waiting p hp
  empty p hp := h.empty p (by rwa [incomplete_bindAll] at hp)
  front p done hf :=
    ⟨(h.front p done hf).1, fun o ho => value?_bindAll_of_some hnew ((h.front p done hf).2 o ho)⟩
  unsealed p hp := by
    rw [incomplete_bindAll] at hp
    rw [isSealed_bindAll]
    exact h.unsealed p hp
  nodup := by
    rw [incomplete_bindAll]
    exact h.nodup
  exists_of_sealed hs := h.exists_of_sealed (by rwa [isSealed_bindAll] at hs)

/-- Binding a value all along the chain that leads to it. -/
theorem Grows.bindAll {P : SymbolId → Block → Prop} {d : Draft} {x : SymbolId} {b last : Block}
    {gone : List Block} {v : Value} (hchain : d.Chain x b gone last)
    (hlast : d.known.value? x last = some v) (hP : ∀ c ∈ gone, P x c) :
    Grows P d (d.bindAll x gone v) where
  current := rfl
  name := rfl
  params := rfl
  result := rfl
  blockCount := rfl
  valueCount := Nat.le_refl _
  info c := ⟨[], by simp [Draft.bindAll], by simp⟩
  valueInfo _ _ := .inl rfl
  types := (Variables.frame_writeAll x v gone d.known).2.2.1
  sealedBlocks := (Variables.frame_writeAll x v gone d.known).2.1
  owner h := by rw [owner?_bindAll]; exact h
  newOwner h := .inl (by rwa [owner?_bindAll] at h)
  value h := value?_bindAll_of_some (fun c hc => (hchain.step hc).1) h
  newValue {y c r} hnone hsome := by
    rw [value?_bindAll] at hsome
    split at hsome
    · next hc =>
      obtain ⟨rfl, hc⟩ := hc
      cases hsome
      obtain ⟨-, hsealed, q, hq, hmem⟩ := hchain.step hc
      refine ⟨hP c hc, .chain (by rw [isSealed_bindAll]; exact hsealed) hq ?_⟩
      rw [value?_bindAll]
      rcases hmem with hmem | rfl
      · rw [if_pos ⟨rfl, hmem⟩]
      · split
        · rfl
        · exact hlast
    · exact absurd (hnone.symm.trans hsome) (by simp)
  arrives {y c r} hsome := by
    rw [value?_bindAll] at hsome
    split at hsome
    · next hc =>
      obtain ⟨rfl, hc⟩ := hc
      cases hsome
      have hpreds : ∀ e, (d.bindAll y gone v).builder.preds e = d.builder.preds e := fun _ => rfl
      exact hchain.arrives hpreds (isSealed_bindAll d y gone v) (.kept hlast) c hc
    · exact .kept hsome
  incomplete p hp := by rw [incomplete_bindAll]; exact hp
  newIncomplete p hp := .inl (by rwa [incomplete_bindAll] at hp)

/-! ## Placing a phi -/

/-- The draft with a new phi for a variable. It may have to wait for its block to be sealed. -/
def placePhi (d : Draft) (x : SymbolId) (b : Block) (ty : Ty) (waiting : List OpenPhi) : Draft where
  builder := (d.builder.phi b ty).2
  known := { d.known.own ⟨d.builder.valueCount⟩ x with
    incomplete := d.known.incomplete ++ waiting }

theorem owner?_placePhi (d : Draft) (x : SymbolId) (b : Block) (ty : Ty) (waiting : List OpenPhi)
    (u : Value) : (d.placePhi x b ty waiting).known.owner? u =
      if u = ⟨d.builder.valueCount⟩ then some x else d.known.owner? u :=
  Variables.owner?_own d.known ⟨d.builder.valueCount⟩ u x

theorem preds_placePhi (d : Draft) (x : SymbolId) (b : Block) (ty : Ty) (waiting : List OpenPhi)
    (c : Block) : (d.placePhi x b ty waiting).builder.preds c = d.builder.preds c := by
  show ((d.builder.phi b ty).2.info c).preds = (d.builder.info c).preds
  rw [Builder.info_phi]
  split <;> rfl

/-- A value that exists stays what it is when a phi is added. -/
theorem valueInfo_placePhi {d : Draft} {v : Value} (h : v.index < d.builder.valueCount)
    (x : SymbolId) (b : Block) (ty : Ty) (waiting : List OpenPhi) :
    (d.placePhi x b ty waiting).builder.valueInfo v = d.builder.valueInfo v := by
  show (d.builder.phi b ty).2.valueInfo v = _
  rw [Builder.valueInfo_phi, if_neg (Nat.ne_of_lt h)]

theorem incoming_placePhi {d : Draft} {v : Value} (h : v.index < d.builder.valueCount)
    (x : SymbolId) (b : Block) (ty : Ty) (waiting : List OpenPhi) :
    (d.placePhi x b ty waiting).builder.incoming v = d.builder.incoming v := by
  exact Builder.incoming_congr (valueInfo_placePhi h x b ty waiting)

/-- The new phi is what it was made as. -/
theorem valueInfo_placePhi_new (d : Draft) (x : SymbolId) (b : Block) (ty : Ty)
    (waiting : List OpenPhi) :
    (d.placePhi x b ty waiting).builder.valueInfo ⟨d.builder.valueCount⟩ = ⟨ty, .phi [], b⟩ := by
  show (d.builder.phi b ty).2.valueInfo _ = _
  rw [Builder.valueInfo_phi, if_pos rfl]

end Draft

namespace Draft

/-- The draft with a new phi for a variable, bound in the block `b` and in those that led there. -/
def settle (d : Draft) (x : SymbolId) (b : Block) (ty : Ty) (waiting : List OpenPhi)
    (blocks : List Block) : Draft :=
  (d.placePhi x b ty waiting).bindAll x blocks ⟨d.builder.valueCount⟩

variable {d : Draft} {x : SymbolId} {b : Block} {ty : Ty} {waiting : List OpenPhi}
  {blocks : List Block}

theorem value?_settle (y : SymbolId) (c : Block) :
    (d.settle x b ty waiting blocks).known.value? y c =
      if y = x ∧ c ∈ blocks then some ⟨d.builder.valueCount⟩ else d.known.value? y c :=
  value?_bindAll _ _ _ _ _ _

theorem owner?_settle (u : Value) : (d.settle x b ty waiting blocks).known.owner? u =
    if u = ⟨d.builder.valueCount⟩ then some x else d.known.owner? u := by
  rw [settle, owner?_bindAll, owner?_placePhi]

theorem isSealed_settle (c : Block) :
    (d.settle x b ty waiting blocks).known.isSealed c = d.known.isSealed c :=
  isSealed_bindAll _ _ _ _ _

theorem incomplete_settle :
    (d.settle x b ty waiting blocks).known.incomplete = d.known.incomplete ++ waiting :=
  incomplete_bindAll _ _ _ _

theorem type?_settle (y : SymbolId) :
    (d.settle x b ty waiting blocks).known.type? y = d.known.type? y :=
  type?_bindAll _ _ _ _ _

theorem preds_settle (c : Block) :
    (d.settle x b ty waiting blocks).builder.preds c = d.builder.preds c :=
  preds_placePhi d x b ty waiting c

theorem info_settle (c : Block) : (d.settle x b ty waiting blocks).builder.info c =
    if c = b ∧ c.index < d.builder.blockCount then
      { d.builder.info c with phis := (d.builder.info c).phis ++ [⟨d.builder.valueCount⟩] }
    else d.builder.info c :=
  Builder.info_phi d.builder b ty c

theorem valueCount_settle :
    (d.settle x b ty waiting blocks).builder.valueCount = d.builder.valueCount + 1 :=
  Builder.valueCount_phi d.builder b ty

theorem blockCount_settle :
    (d.settle x b ty waiting blocks).builder.blockCount = d.builder.blockCount :=
  Builder.blockCount_phi d.builder b ty

theorem valueInfo_settle {v : Value} (h : v.index < d.builder.valueCount) :
    (d.settle x b ty waiting blocks).builder.valueInfo v = d.builder.valueInfo v :=
  valueInfo_placePhi h x b ty waiting

theorem valueInfo_settle_new : (d.settle x b ty waiting blocks).builder.valueInfo
    ⟨d.builder.valueCount⟩ = ⟨ty, .phi [], b⟩ :=
  valueInfo_placePhi_new d x b ty waiting

theorem incoming_settle {v : Value} (h : v.index < d.builder.valueCount) :
    (d.settle x b ty waiting blocks).builder.incoming v = d.builder.incoming v :=
  incoming_placePhi h x b ty waiting

theorem incoming_settle_new :
    (d.settle x b ty waiting blocks).builder.incoming ⟨d.builder.valueCount⟩ = [] := by
  refine Builder.incoming_of_inst ?_
  rw [valueInfo_settle_new]

/-- Values that are bound stay bound when a phi is settled where nothing was known. -/
theorem value?_settle_of_some (hnew : ∀ c ∈ blocks, d.known.value? x c = none) {y : SymbolId}
    {c : Block} {r : Value} (h : d.known.value? y c = some r) :
    (d.settle x b ty waiting blocks).known.value? y c = some r := by
  have hnew' : ∀ c ∈ blocks, (d.placePhi x b ty waiting).known.value? x c = none := hnew
  exact value?_bindAll_of_some hnew' h

/-- A phi in hand or waiting was made before. -/
theorem Coherent.lt_of_mem {agenda : Agenda} (h : d.Coherent agenda) {p : OpenPhi}
    (hp : p ∈ d.known.incomplete ++ agenda.phis) : p.phi.index < d.builder.valueCount :=
  (h.owned (h.waiting p hp).1).1

/-- A settled phi waits, or comes next on the agenda. -/
theorem Coherent.settle {pending made : List OpenPhi} {front? : Option (OpenPhi × List Block)}
    {closing? : Option Block} (h : d.Coherent ⟨pending, front?, closing?⟩)
    (hnew : ∀ c ∈ blocks, d.known.value? x c = none) (hb : b ∈ blocks)
    (hexists : b.index < d.builder.blockCount) (htype : d.known.type? x = some ty)
    (hkind : (waiting = [⟨x, b, ⟨d.builder.valueCount⟩⟩] ∧ made = [] ∧
        d.known.isSealed b = false) ∨
      (waiting = [] ∧ made = [⟨x, b, ⟨d.builder.valueCount⟩⟩] ∧ d.known.isSealed b = true)) :
    (d.settle x b ty waiting blocks).Coherent ⟨made ++ pending, front?, closing?⟩ := by
  have hmem : ∀ p, p ∈ (d.known.incomplete ++ waiting) ++ ((front?.map Prod.fst).toList ++
      (made ++ pending)) ↔ p ∈ d.known.incomplete ++ ((front?.map Prod.fst).toList ++ pending) ∨
        p = ⟨x, b, ⟨d.builder.valueCount⟩⟩ := by
    intro p
    rcases hkind with ⟨rfl, rfl, -⟩ | ⟨rfl, rfl, -⟩
    all_goals
      simp only [List.mem_append, List.mem_singleton, List.not_mem_nil, false_or, or_false]
      tauto
  have hold : ∀ {p : OpenPhi},
      p ∈ d.known.incomplete ++ ((front?.map Prod.fst).toList ++ pending) →
        p.phi.index < d.builder.valueCount := fun hp => h.lt_of_mem hp
  constructor
  case owned =>
    intro v y howner
    rw [owner?_settle] at howner
    split at howner
    · next hv =>
      cases howner
      rw [hv, valueInfo_settle_new]
      refine ⟨by rw [valueCount_settle]; exact Nat.lt_succ_self _, by rw [blockCount_settle]; exact hexists,
        ?_, ?_, ?_, ⟨[], rfl⟩⟩
      · rw [info_settle, if_pos ⟨rfl, hexists⟩]
        simp
      · rw [type?_settle, htype]
        show _ = some ((d.settle x b ty waiting blocks).builder.valueInfo _).ty
        rw [valueInfo_settle_new]
      · rw [value?_settle, if_pos ⟨rfl, hb⟩]
        rfl
    · obtain ⟨h1, h2, h3, h4, h5, h6⟩ := h.owned howner
      obtain ⟨r, hr⟩ := Option.isSome_iff_exists.1 h5
      rw [valueInfo_settle h1, valueCount_settle, blockCount_settle, type?_settle,
        value?_settle_of_some hnew hr]
      refine ⟨by omega, h2, ?_, ?_, rfl, h6⟩
      · rw [info_settle]
        split
        · exact List.mem_append_left _ h3
        · exact h3
      · rw [h4]
        show _ = some ((d.settle x b ty waiting blocks).builder.valueInfo _).ty
        rw [valueInfo_settle h1]
        rfl
  case stage =>
    intro v y howner
    rw [owner?_settle] at howner
    rw [incomplete_settle]
    split at howner
    · next hv =>
      cases howner
      rw [hv, valueInfo_settle_new, isSealed_settle]
      rcases hkind with ⟨rfl, rfl, hs⟩ | ⟨rfl, rfl, hs⟩
      · exact .inl ⟨by simp, hs⟩
      · exact .inr ⟨.inl hs, .inl (by simp [Agenda.phis])⟩
    · obtain ⟨h1, -⟩ := h.owned howner
      rw [valueInfo_settle h1, isSealed_settle]
      rcases h.stage howner with ⟨hw, hs⟩ | ⟨hs, hp | ⟨hf, hv⟩⟩
      · exact .inl ⟨List.mem_append_left _ hw, hs⟩
      · refine .inr ⟨hs, .inl ?_⟩
        simp only [Agenda.phis, List.mem_append] at hp ⊢
        tauto
      · refine .inr ⟨hs, .inr ⟨?_, ?_⟩⟩
        · rw [incoming_settle h1, preds_settle]
          exact hf
        · rw [incoming_settle h1]
          exact fun o ho => value?_settle_of_some hnew (hv o ho)
  case waiting =>
    intro p hp
    rw [incomplete_settle] at hp
    rcases (hmem p).1 hp with hp | rfl
    · have hlt := hold hp
      have hne : p.phi ≠ ⟨d.builder.valueCount⟩ := fun e => by simp [e] at hlt
      rw [owner?_settle, if_neg hne, valueInfo_settle hlt]
      exact h.waiting p hp
    · rw [owner?_settle, if_pos rfl, valueInfo_settle_new]
      exact ⟨rfl, rfl⟩
  case empty =>
    intro p hp
    rw [incomplete_settle] at hp
    have hp' : p ∈ d.known.incomplete ++ pending ∨ p = ⟨x, b, ⟨d.builder.valueCount⟩⟩ := by
      rcases hkind with ⟨rfl, rfl, -⟩ | ⟨rfl, rfl, -⟩
      all_goals
        simp only [List.mem_append, List.mem_singleton, List.not_mem_nil, false_or,
          or_false] at hp ⊢
        tauto
    rcases hp' with hp' | rfl
    · rw [incoming_settle (h.lt_of_mem (by
        simp only [Agenda.phis, List.mem_append] at hp' ⊢
        tauto))]
      exact h.empty p hp'
    · exact incoming_settle_new
  case front =>
    intro p done hf
    have hlt : p.phi.index < d.builder.valueCount := h.lt_of_mem (by
      have : front? = some (p, done) := hf
      simp [Agenda.phis, this])
    rw [incoming_settle hlt]
    exact ⟨(h.front p done hf).1,
      fun o ho => value?_settle_of_some hnew ((h.front p done hf).2 o ho)⟩
  case unsealed =>
    intro p hp
    rw [incomplete_settle] at hp
    rw [isSealed_settle]
    rcases List.mem_append.1 hp with hp | hp
    · exact h.unsealed p hp
    · rcases hkind with ⟨rfl, rfl, hs⟩ | ⟨rfl, rfl, hs⟩
      · rw [List.mem_singleton.1 hp]
        exact hs
      · simp at hp
  case nodup =>
    rw [incomplete_settle]
    have hfresh : (⟨d.builder.valueCount⟩ : Value) ∉
        (d.known.incomplete ++ ((front?.map Prod.fst).toList ++ pending)).map OpenPhi.phi := by
      intro hm
      obtain ⟨p, hp, he⟩ := List.mem_map.1 hm
      have hlt := hold hp
      simp [he] at hlt
    have hcons : (((⟨x, b, ⟨d.builder.valueCount⟩⟩ : OpenPhi) :: (d.known.incomplete ++
        ((front?.map Prod.fst).toList ++ pending))).map OpenPhi.phi).Nodup :=
      List.nodup_cons.2 ⟨hfresh, h.nodup⟩
    refine (List.Perm.nodup_iff (List.Perm.map _ ?_)).1 hcons
    rcases hkind with ⟨rfl, rfl, -⟩ | ⟨rfl, rfl, -⟩
    · simp only [Agenda.phis, List.nil_append, List.append_assoc]
      exact List.perm_middle.symm
    · simp only [Agenda.phis, List.append_nil]
      rw [← List.append_assoc, ← List.append_assoc]
      exact List.perm_middle.symm
  case exists_of_sealed =>
    intro c hs
    rw [isSealed_settle] at hs
    rw [blockCount_settle]
    exact h.exists_of_sealed hs

end Draft

namespace Draft

variable {P : SymbolId → Block → Prop} {d : Draft} {x : SymbolId}

/-- Settling a phi at the end of a chain, with the chain bound to it, is what a search may do. -/
theorem Grows.settle {b last : Block} {gone blocks : List Block} {ty : Ty}
    {waiting : List OpenPhi} (hchain : d.Chain x b gone last)
    (hblocks : ∀ c, c ∈ blocks ↔ c ∈ gone ∨ c = last)
    (hlast : d.known.value? x last = none) (hexists : last.index < d.builder.blockCount)
    (hP : ∀ c ∈ blocks, P x c)
    (howner : ∀ v y, d.known.owner? v = some y → v.index < d.builder.valueCount)
    (hmerge : d.known.isSealed last = true → ∀ q, d.builder.preds last ≠ [q])
    (hwaiting : ∀ p ∈ waiting, p.var = x ∧ p.block = last) :
    Grows P d (d.settle x last ty waiting blocks) := by
  have hnew : ∀ c ∈ blocks, d.known.value? x c = none := by
    intro c hc
    rcases (hblocks c).1 hc with hc | rfl
    · exact (hchain.step hc).1
    · exact hlast
  have hmemLast : last ∈ blocks := (hblocks last).2 (.inr rfl)
  have hphi : (⟨d.builder.valueCount⟩ : Value) ∈
      ((d.settle x last ty waiting blocks).builder.info last).phis := by
    rw [info_settle, if_pos ⟨rfl, hexists⟩]
    simp
  have hown : (d.settle x last ty waiting blocks).known.owner? ⟨d.builder.valueCount⟩ = some x := by
    rw [owner?_settle, if_pos rfl]
  constructor
  case current => rfl
  case name => rfl
  case params => rfl
  case result => rfl
  case blockCount => exact blockCount_settle
  case valueCount => rw [valueCount_settle]; exact Nat.le_succ _
  case info =>
    intro c
    rw [info_settle]
    by_cases hc : c = last ∧ c.index < d.builder.blockCount
    · refine ⟨[⟨d.builder.valueCount⟩], by rw [if_pos hc], fun v hv => ?_⟩
      rw [List.mem_singleton.1 hv]
      refine ⟨Nat.le_refl _, by rw [valueCount_settle]; exact Nat.lt_succ_self _,
        by rw [valueInfo_settle_new, hc.1], x, hown, ?_, ?_, ?_⟩
      · rw [hc.1]; exact hlast
      · rw [hc.1]; exact hP last hmemLast
      · rw [hc.1]; exact hmerge
    · exact ⟨[], by rw [if_neg hc]; simp, by simp⟩
  case valueInfo => exact fun v hv => .inl (valueInfo_settle hv)
  case types => exact (Variables.frame_writeAll _ _ _ _).2.2.1
  case sealedBlocks => exact (Variables.frame_writeAll _ _ _ _).2.1
  case owner =>
    intro v y hv
    rw [owner?_settle, if_neg, hv]
    rintro rfl
    exact absurd (howner _ _ hv) (Nat.lt_irrefl _)
  case newOwner =>
    intro v y hv
    rw [owner?_settle] at hv
    split at hv
    · next hv' =>
      subst hv'
      exact .inr (Nat.le_refl _)
    · exact .inl hv
  case value => exact fun h => value?_settle_of_some hnew h
  case newValue =>
    intro y c r hnone hsome
    rw [value?_settle] at hsome
    split at hsome
    · next hc =>
      obtain ⟨rfl, hc⟩ := hc
      cases hsome
      refine ⟨hP c hc, ?_⟩
      rcases (hblocks c).1 hc with hgone | rfl
      · obtain ⟨-, hsealed, q, hq, hmem⟩ := hchain.step hgone
        refine .chain (by rw [isSealed_settle]; exact hsealed) (by rw [preds_settle]; exact hq) ?_
        rw [value?_settle, if_pos ⟨rfl, (hblocks q).2 hmem⟩]
      · exact .phi hphi hown
    · exact absurd (hnone.symm.trans hsome) (by simp)
  case arrives =>
    intro y c r hsome
    rw [value?_settle] at hsome
    split at hsome
    · next hc =>
      obtain ⟨rfl, hc⟩ := hc
      cases hsome
      have hend : Arrives d (d.settle y last ty waiting blocks) y last ⟨d.builder.valueCount⟩ :=
        .phi hphi hown
      rcases (hblocks c).1 hc with hgone | rfl
      · exact hchain.arrives preds_settle isSealed_settle hend c hgone
      · exact hend
    · exact .kept hsome
  case incomplete =>
    intro p hp
    rw [incomplete_settle]
    exact List.mem_append_left _ hp
  case newIncomplete =>
    intro p hp
    rw [incomplete_settle] at hp
    rcases List.mem_append.1 hp with hp | hp
    · exact .inl hp
    · obtain ⟨hvar, hblock⟩ := hwaiting p hp
      rw [hvar, hblock]
      exact .inr ⟨hlast, hP last hmemLast⟩

end Draft

/-! ## Giving a phi an operand -/

namespace Draft

/-- The draft in which a phi has one more operand. -/
def addIncoming (d : Draft) (phi : Value) (q : Block) (v : Value) : Draft :=
  { d with builder := d.builder.addIncoming phi q v }

variable {d : Draft} {p : OpenPhi} {q : Block} {v : Value}

theorem valueInfo_addIncoming_of_ne {u : Value} (h : u ≠ p.phi) :
    (d.addIncoming p.phi q v).builder.valueInfo u = d.builder.valueInfo u := by
  show (d.builder.addIncoming p.phi q v).valueInfo u = _
  rw [Builder.valueInfo_addIncoming, if_neg fun hu => h hu.1]

theorem frame_addIncoming (u : Value) :
    (d.addIncoming p.phi q v).builder.ty u = d.builder.ty u ∧
      ((d.addIncoming p.phi q v).builder.valueInfo u).block = (d.builder.valueInfo u).block := by
  have h : (d.addIncoming p.phi q v).builder.valueInfo u = _ :=
    Builder.valueInfo_addIncoming d.builder p.phi q v u
  unfold Builder.ty
  rw [show (d.addIncoming p.phi q v).builder.function.value u = _ from h, h]
  split <;> simp

/-- The phi whose turn it is gets the operand for one more predecessor. -/
theorem Coherent.addIncoming {pending : List OpenPhi} {done : List Block}
    {closing? : Option Block} (h : d.Coherent ⟨pending, some (p, done), closing?⟩)
    (hvalue : d.known.value? p.var q = some v) :
    (d.addIncoming p.phi q v).Coherent ⟨pending, some (p, done ++ [q]), closing?⟩ := by
  have hmem : p ∈ d.known.incomplete ++ Agenda.phis ⟨pending, some (p, done), closing?⟩ := by
    simp [Agenda.phis]
  obtain ⟨howner, hblock⟩ := h.waiting p hmem
  obtain ⟨hlt, -, -, -, -, incoming, hinst⟩ := h.owned howner
  obtain ⟨hdone, hvalues⟩ := h.front p done rfl
  have hincoming : d.builder.incoming p.phi = incoming := Builder.incoming_of_inst hinst
  have hinst' : ((d.addIncoming p.phi q v).builder.valueInfo p.phi).inst =
      .phi (incoming ++ [(q, v)]) := by
    show ((d.builder.addIncoming p.phi q v).valueInfo p.phi).inst = _
    rw [Builder.valueInfo_addIncoming, if_pos ⟨rfl, hlt⟩]
    exact Builder.addOperand_inst hinst q v
  have hincoming' : (d.addIncoming p.phi q v).builder.incoming p.phi = incoming ++ [(q, v)] :=
    Builder.incoming_of_inst hinst'
  have hother : ∀ {u}, u ≠ p.phi →
      (d.addIncoming p.phi q v).builder.incoming u = d.builder.incoming u :=
    fun hu => Builder.incoming_congr (valueInfo_addIncoming_of_ne hu)
  have hframe := frame_addIncoming (d := d) (p := p) (q := q) (v := v)
  -- The phi whose turn it is stands once on the agenda, so the others keep what they have.
  have hne : ∀ o ∈ d.known.incomplete ++ pending, o.phi ≠ p.phi := by
    have hnodup := h.nodup
    have hperm : (d.known.incomplete ++ Agenda.phis ⟨pending, some (p, done), closing?⟩).Perm
        (p :: (d.known.incomplete ++ pending)) := by
      simp only [Agenda.phis, Option.map_some, Option.toList_some]
      exact List.perm_middle
    rw [(hperm.map OpenPhi.phi).nodup_iff, List.map_cons, List.nodup_cons] at hnodup
    intro o ho he
    exact hnodup.1 (he ▸ List.mem_map_of_mem ho)
  constructor
  case owned =>
    intro u y hu
    obtain ⟨h1, h2, h3, h4, h5, h6⟩ := h.owned hu
    rw [(hframe u).1, (hframe u).2]
    refine ⟨by simpa [Draft.addIncoming] using h1, h2, h3, h4, h5, ?_⟩
    by_cases hup : u = p.phi
    · rw [hup]
      exact ⟨_, hinst'⟩
    · rw [valueInfo_addIncoming_of_ne hup]
      exact h6
  case stage =>
    intro u y hu
    rw [(hframe u).2]
    rcases h.stage hu with hw | ⟨hs, hp | ⟨hf, hv⟩⟩
    · exact .inl hw
    · exact .inr ⟨hs, .inl hp⟩
    · by_cases hup : u = p.phi
      · refine .inr ⟨hs, .inl ?_⟩
        have hu' : d.known.owner? u = some y := hu
        rw [hup] at hu'
        have hy : y = p.var := Option.some.inj (hu'.symm.trans howner)
        rw [hup, hy, hblock]
        simp [Agenda.phis]
      · refine .inr ⟨hs, .inr ⟨?_, ?_⟩⟩
        · rw [hother hup]
          exact hf
        · rw [hother hup]
          exact hv
  case waiting =>
    intro o ho
    rw [(hframe o.phi).2]
    exact h.waiting o ho
  case empty =>
    intro o ho
    rw [hother (hne o ho)]
    exact h.empty o ho
  case front =>
    intro o done' ho
    cases ho
    rw [hincoming']
    rw [hincoming] at hdone hvalues
    refine ⟨by simp [hdone], ?_⟩
    intro e he
    rcases List.mem_append.1 he with he | he
    · exact hvalues e he
    · rw [List.mem_singleton.1 he]
      exact hvalue
  case unsealed => exact h.unsealed
  case nodup => exact h.nodup
  case exists_of_sealed => exact h.exists_of_sealed

/-- An operand for a phi that was made for a variable is what a search may add. -/
theorem Grows.addIncoming (P : SymbolId → Block → Prop)
    (howner : (d.known.owner? p.phi).isSome) : Grows P d (d.addIncoming p.phi q v) where
  current := rfl
  name := rfl
  params := rfl
  result := rfl
  blockCount := rfl
  valueCount := by simp [Draft.addIncoming]
  info c := ⟨[], by simp [Draft.addIncoming], by simp⟩
  valueInfo u _ := by
    by_cases hu : u = p.phi
    · rw [hu]
      exact .inr ⟨howner, frame_addIncoming p.phi⟩
    · exact .inl (valueInfo_addIncoming_of_ne hu)
  types := rfl
  sealedBlocks := rfl
  owner h := h
  newOwner h := .inl h
  value h := h
  newValue h h' := absurd (h.symm.trans h') (by simp)
  arrives h := .kept h
  incomplete _ h := h
  newIncomplete _ h := .inl h

/-- A phi whose turn comes. -/
theorem Coherent.take {rest : List OpenPhi} {closing? : Option Block}
    (h : d.Coherent ⟨p :: rest, none, closing?⟩) :
    d.Coherent ⟨rest, some (p, []), closing?⟩ where
  owned := h.owned
  stage := h.stage
  waiting := h.waiting
  empty o ho := h.empty o (by
    simp only [List.mem_append, List.mem_cons] at ho ⊢
    tauto)
  front o done ho := by
    cases ho
    rw [h.empty p (by simp)]
    simp
  unsealed := h.unsealed
  nodup := h.nodup
  exists_of_sealed := h.exists_of_sealed

/-- A phi that has operands for all predecessors is done. -/
theorem Coherent.drop {rest : List OpenPhi} {closing? : Option Block}
    (h : d.Coherent ⟨rest, some (p, d.builder.preds p.block), closing?⟩) :
    d.Coherent ⟨rest, none, closing?⟩ := by
  have hmem : p ∈ d.known.incomplete ++
      Agenda.phis ⟨rest, some (p, d.builder.preds p.block), closing?⟩ := by
    simp [Agenda.phis]
  have hfilled : d.Filled p.var p.block p.phi := h.front p _ rfl
  constructor
  case owned => exact h.owned
  case stage =>
    intro u y hu
    rcases h.stage hu with hw | ⟨hs, hp | hf⟩
    · exact .inl hw
    · refine .inr ⟨hs, ?_⟩
      rcases List.mem_cons.1 (show _ ∈ p :: rest from hp) with he | hp
      · rw [← he] at hfilled
        exact .inr hfilled
      · exact .inl hp
    · exact .inr ⟨hs, .inr hf⟩
  case waiting =>
    intro o ho
    refine h.waiting o ?_
    simp only [Agenda.phis, Option.map_none, Option.map_some, Option.toList_none, List.mem_append,
      List.nil_append, Option.toList_some, List.mem_singleton] at ho ⊢
    tauto
  case empty => exact h.empty
  case front => simp
  case unsealed => exact h.unsealed
  case nodup =>
    refine h.nodup.sublist ?_
    refine List.Sublist.map _ ((List.sublist_append_right [p] _).append_left _)
  case exists_of_sealed => exact h.exists_of_sealed

end Draft

end Abacus.Lowering
