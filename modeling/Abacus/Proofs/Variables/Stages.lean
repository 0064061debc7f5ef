import Abacus.Proofs.Variables.Recording

/-!
# The stages of a search

Whatever order a search takes, what it does can be cut into steps: it makes a phi in a block where
nothing else will do, it keeps a value along a chain of blocks with one predecessor each, and it gives a
phi its next operand. A `Stage` says how far this has come since a draft `d₀`: which phis have been made,
which operands have been given, and which are still to be given. Nothing in it depends on the order of
blocks; only the operands of one phi come in order.

* `Task` — an operand that is to be given;
* `Draft.Brings` — the value that the phis made so far bring to a block;
* `Stage` — how far a search has come;
* `Stage.keep`, `Stage.make`, `Stage.give` — its steps.
-/

namespace Abacus.Lowering

open Abacus.Flow (Value Block Ty Inst Terminator Builder BlockInfo ValueInfo)

/-! ## Operands -/

/-- Where a phi stands and what for. -/
def OpenPhi.site (p : OpenPhi) : Site := ⟨p.var, p.block⟩

/-- The operand of a phi for one predecessor. -/
structure Task where
  phi : OpenPhi
  pred : Block

/-- A value with further operands, if it is a phi. -/
def addOperands (info : ValueInfo) (operands : List (Block × Value)) : ValueInfo :=
  match info.inst with
  | .phi incoming => { info with inst := .phi (incoming ++ operands) }
  | _ => info

theorem addOperands_nil (info : ValueInfo) : addOperands info [] = info := by
  obtain ⟨ty, inst, block⟩ := info
  cases inst <;> simp [addOperands]

theorem addOperands_snoc (info : ValueInfo) (operands : List (Block × Value)) (q : Block) (u : Value) :
    addOperands info (operands ++ [(q, u)]) =
      Builder.addOperand (addOperands info operands) q u := by
  obtain ⟨ty, inst, block⟩ := info
  cases inst <;> simp [addOperands, Builder.addOperand]

namespace Draft

/-- The operands that a phi needs, one for each predecessor of its block. -/
def tasksOf (d : Draft) (p : OpenPhi) : List Task := (d.builder.preds p.block).map (Task.mk p)

/-- What a phi gets for a predecessor: what its variable has there. -/
def operand (d : Draft) (t : Task) : Block × Value :=
  (t.pred, (d.known.value? t.phi.var t.pred).getD default)

/-- The operands that a value has got by some tasks. -/
def given (d : Draft) (log : List Task) (v : Value) : List (Block × Value) :=
  (log.filter (·.phi.phi = v)).map d.operand

/-- A phi is made for a variable in a block, and bound there. It waits if the block is not sealed. -/
def make (d : Draft) (x : SymbolId) (c : Block) (ty : Ty) : Draft :=
  d.settle x c ty (if d.known.isSealed c then [] else [⟨x, c, ⟨d.builder.valueCount⟩⟩]) [c]

section Make

variable {d : Draft} {x : SymbolId} {c : Block} {ty : Ty}

theorem value?_make (y : SymbolId) (e : Block) : (d.make x c ty).known.value? y e =
    if y = x ∧ e = c then some ⟨d.builder.valueCount⟩ else d.known.value? y e := by
  unfold make
  rw [value?_settle]
  simp

theorem value?_make_self : (d.make x c ty).known.value? x c = some ⟨d.builder.valueCount⟩ := by
  rw [value?_make, if_pos ⟨rfl, rfl⟩]

theorem extends_make (hnone : d.known.value? x c = none) : d.Extends (d.make x c ty) :=
  ⟨value?_settle_of_some (by simp [hnone]), blockCount_settle⟩

end Make

/-- The search goes on in no single block from here: the variable has no value, and the block is not
sealed or has no or several predecessors. -/
structure Stop (d : Draft) (x : SymbolId) (c : Block) : Prop where
  unbound : d.known.value? x c = none
  noChain : d.known.isSealed c = true → ∀ q, d.builder.preds c ≠ [q]

/-- The value that a variable has in a block once the phis `made` are there: the one that it has
already, a phi, or what its only predecessor has. -/
inductive Brings (d : Draft) (made : List OpenPhi) (x : SymbolId) : Block → Value → Prop
  | bound {c v} : d.known.value? x c = some v → Brings d made x c v
  | phi {c v} : ⟨x, c, v⟩ ∈ made → Brings d made x c v
  | back {c q v} : d.known.value? x c = none → d.known.isSealed c = true →
      d.builder.preds c = [q] → Brings d made x q v → Brings d made x c v

theorem Brings.mono {d : Draft} {made more : List OpenPhi} {x : SymbolId} {c : Block} {v : Value}
    (h : d.Brings made x c v) : d.Brings (made ++ more) x c v := by
  induction h with
  | bound hv => exact .bound hv
  | phi hmem => exact .phi (List.mem_append_left _ hmem)
  | back hnone hsealed hpreds _ ih => exact .back hnone hsealed hpreds ih

end Draft

/-! ## Stages -/

/-- What the graph and the bookkeeping have become with the phis `made` and the operands `log`. -/
structure Outline (d₀ : Draft) (made : List OpenPhi) (log : List Task) (d : Draft) : Prop where
  current : d.builder.current = d₀.builder.current
  name : d.builder.function.name = d₀.builder.function.name
  params : d.builder.function.params = d₀.builder.function.params
  result : d.builder.function.result = d₀.builder.function.result
  blockCount : d.builder.blockCount = d₀.builder.blockCount
  info : ∀ c, c.index < d₀.builder.blockCount → d.builder.info c = { d₀.builder.info c with
    phis := (d₀.builder.info c).phis ++ (made.filter (·.block = c)).map OpenPhi.phi }
  valueCount : d.builder.valueCount = d₀.builder.valueCount + made.length
  numbers : made.map (·.phi.index) = List.range' d₀.builder.valueCount made.length
  old : ∀ v, v.index < d₀.builder.valueCount →
    d.builder.valueInfo v = addOperands (d₀.builder.valueInfo v) (d.given log v)
  new : ∀ p ∈ made, ∃ ty, d₀.known.type? p.var = some ty ∧
    d.builder.valueInfo p.phi = ⟨ty, .phi (d.given log p.phi), p.block⟩
  types : d.known.types = d₀.known.types
  sealedBlocks : d.known.sealedBlocks = d₀.known.sealedBlocks
  owner : ∀ v, d.known.owner? v =
    ((made.find? (·.phi = v)).map OpenPhi.var).or (d₀.known.owner? v)
  incomplete : d.known.incomplete =
    d₀.known.incomplete ++ made.filter (fun p => !d₀.known.isSealed p.block)

/-- What is bound with the phis `made`, in blocks of `P` only. -/
structure Bindings (P : SymbolId → Block → Prop) (d₀ : Draft) (made : List OpenPhi) (d : Draft) :
    Prop where
  stops : ∀ p ∈ made, P p.var p.block ∧ d₀.Stop p.var p.block
  sites : (made.map OpenPhi.site).Nodup
  phis : ∀ p ∈ made, d.known.value? p.var p.block = some p.phi
  kept : ∀ {x c v}, d₀.known.value? x c = some v → d.known.value? x c = some v
  brings : ∀ {x c v}, d.known.value? x c = some v → d₀.Brings made x c v
  reached : ∀ {x c v}, d₀.known.value? x c = none → d.known.value? x c = some v → P x c
  chained : ∀ {x c q v}, d₀.known.value? x c = none → d.known.value? x c = some v →
    d₀.known.isSealed c = true → d₀.builder.preds c = [q] → d.known.value? x q = some v

/-- The operands given and those still to be given are, phi by phi, those that the phis need: the
`jobs` that the search has started with, and the phis made in sealed blocks. -/
structure Balance (d₀ : Draft) (jobs made : List OpenPhi) (log tasks : List Task) (d : Draft) :
    Prop where
  given : ∀ t ∈ log, (d.known.value? t.phi.var t.pred).isSome
  total : ∀ v, (log ++ tasks).filter (·.phi.phi = v) =
    ((jobs ++ made.filter (fun p => d₀.known.isSealed p.block)).flatMap d₀.tasksOf).filter
      (·.phi.phi = v)

/-- How far a search has come that has begun in `d₀`. -/
structure Stage (P : SymbolId → Block → Prop) (d₀ : Draft) (jobs made : List OpenPhi)
    (log tasks : List Task) (d : Draft) : Prop where
  outline : Outline d₀ made log d
  bindings : Bindings P d₀ made d
  balance : Balance d₀ jobs made log tasks d

namespace Stage

variable {P : SymbolId → Block → Prop} {d₀ d d' : Draft} {jobs made : List OpenPhi}
  {log tasks : List Task} {x : SymbolId} {b c q : Block} {v : Value}

/-- Where a search begins. -/
theorem start (P : SymbolId → Block → Prop) (d₀ : Draft) (jobs : List OpenPhi) :
    Stage P d₀ jobs [] [] (jobs.flatMap d₀.tasksOf) d₀ where
  outline :=
    { current := rfl, name := rfl, params := rfl, result := rfl, blockCount := rfl
      info := fun c _ => by simp
      valueCount := rfl
      numbers := rfl
      old := fun v _ => (addOperands_nil _).symm
      new := by simp
      types := rfl
      sealedBlocks := rfl
      owner := by simp
      incomplete := by simp }
  bindings :=
    { stops := by simp, sites := by simp, phis := by simp
      kept := id
      brings := .bound
      reached := fun hnone h => by simp [hnone] at h
      chained := fun hnone h => by simp [hnone] at h }
  balance := { given := by simp, total := by simp }

section

variable (h : Stage P d₀ jobs made log tasks d)
include h

theorem isSealed (c : Block) : d.known.isSealed c = d₀.known.isSealed c := by
  unfold Variables.isSealed
  rw [h.outline.sealedBlocks]

theorem type? (x : SymbolId) : d.known.type? x = d₀.known.type? x := by
  unfold Variables.type?
  rw [h.outline.types]

theorem preds (c : Block) : d.builder.preds c = d₀.builder.preds c := by
  by_cases hc : c.index < d₀.builder.blockCount
  · show (d.builder.info c).preds = _
    rw [h.outline.info c hc]
    rfl
  · have hle := Nat.not_lt.1 hc
    have hle' : d.builder.blockCount ≤ c.index := by
      rw [h.outline.blockCount]
      exact hle
    rw [Builder.preds_of_le hle, Builder.preds_of_le hle']

theorem unbound (hnone : d.known.value? x c = none) : d₀.known.value? x c = none := by
  cases hv : d₀.known.value? x c with
  | none => rfl
  | some v =>
    rw [h.bindings.kept hv] at hnone
    cases hnone

/-- The phis that have been made exist. -/
theorem lt_of_mem {p : OpenPhi} (hp : p ∈ made) :
    d₀.builder.valueCount ≤ p.phi.index ∧ p.phi.index < d.builder.valueCount := by
  have hmem : p.phi.index ∈ made.map (·.phi.index) := List.mem_map_of_mem hp
  rw [h.outline.numbers, List.mem_range'_1] at hmem
  rw [h.outline.valueCount]
  exact hmem

end

/-! ## Steps -/

/-- Tasks that have been dealt with are bound, and what is bound stays. -/
theorem given_congr (h : Stage P d₀ jobs made log tasks d)
    (hvalue : ∀ {y e u}, d.known.value? y e = some u → d'.known.value? y e = some u) (v : Value) :
    d'.given log v = d.given log v := by
  unfold Draft.given
  apply List.map_congr_left
  intro t ht
  obtain ⟨u, hu⟩ := Option.isSome_iff_exists.1 (h.balance.given t (List.mem_of_mem_filter ht))
  unfold Draft.operand
  rw [hu, hvalue hu]

/-- Bindings may be added where the search comes along. -/
theorem bind (h : Stage P d₀ jobs made log tasks d) (hbuilder : d'.builder = d.builder)
    (htypes : d'.known.types = d.known.types)
    (hsealed : d'.known.sealedBlocks = d.known.sealedBlocks)
    (howners : d'.known.owners = d.known.owners)
    (hincomplete : d'.known.incomplete = d.known.incomplete)
    (hvalue : ∀ {y e u}, d.known.value? y e = some u → d'.known.value? y e = some u)
    (hnew : ∀ {y e u}, d'.known.value? y e = some u → d.known.value? y e = some u ∨
      P y e ∧ d₀.Brings made y e u ∧ ∀ q, d₀.known.isSealed e = true → d₀.builder.preds e = [q] →
        d'.known.value? y q = some u) : Stage P d₀ jobs made log tasks d' where
  outline :=
    { current := by rw [hbuilder, h.outline.current]
      name := by rw [hbuilder, h.outline.name]
      params := by rw [hbuilder, h.outline.params]
      result := by rw [hbuilder, h.outline.result]
      blockCount := by rw [hbuilder, h.outline.blockCount]
      info := by rw [hbuilder]; exact h.outline.info
      valueCount := by rw [hbuilder, h.outline.valueCount]
      numbers := h.outline.numbers
      old := by
        intro v hv
        rw [hbuilder, h.given_congr hvalue]
        exact h.outline.old v hv
      new := by
        intro p hp
        rw [hbuilder, h.given_congr hvalue]
        exact h.outline.new p hp
      types := htypes.trans h.outline.types
      sealedBlocks := hsealed.trans h.outline.sealedBlocks
      owner := by
        intro v
        unfold Variables.owner?
        rw [howners]
        exact h.outline.owner v
      incomplete := hincomplete.trans h.outline.incomplete }
  bindings :=
    { stops := h.bindings.stops
      sites := h.bindings.sites
      phis := fun p hp => hvalue (h.bindings.phis p hp)
      kept := fun hu => hvalue (h.bindings.kept hu)
      brings := fun hu => by
        rcases hnew hu with hold | ⟨-, hbrings, -⟩
        · exact h.bindings.brings hold
        · exact hbrings
      reached := fun hnone hu => by
        rcases hnew hu with hold | ⟨hP, -⟩
        · exact h.bindings.reached hnone hold
        · exact hP
      chained := fun hnone hu hclosed hpreds => by
        rcases hnew hu with hold | ⟨-, -, hback⟩
        · exact hvalue (h.bindings.chained hnone hold hclosed hpreds)
        · exact hback _ hclosed hpreds }
  balance :=
    { given := fun t ht => by
        obtain ⟨u, hu⟩ := Option.isSome_iff_exists.1 (h.balance.given t ht)
        rw [hvalue hu]
        rfl
      total := h.balance.total }

/-- Only what can be looked up matters. -/
theorem congr (h : Stage P d₀ jobs made log tasks d) (hbuilder : d'.builder = d.builder)
    (htypes : d'.known.types = d.known.types)
    (hsealed : d'.known.sealedBlocks = d.known.sealedBlocks)
    (howners : d'.known.owners = d.known.owners)
    (hincomplete : d'.known.incomplete = d.known.incomplete)
    (hvalue : ∀ y e, d'.known.value? y e = d.known.value? y e) :
    Stage P d₀ jobs made log tasks d' := by
  apply h.bind hbuilder htypes hsealed howners hincomplete
  · intro y e u hu
    rw [hvalue, hu]
  · intro y e u hu
    rw [hvalue] at hu
    exact .inl hu

/-- What comes to the end of a chain comes to all of its blocks. -/
theorem brings_chain (h : Stage P d₀ jobs made log tasks d) {gone : List Block} {last : Block}
    (hchain : d.Chain x b gone last) (hlast : d₀.Brings made x last v) :
    d₀.Brings made x b v ∧ ∀ c ∈ gone, d₀.Brings made x c v := by
  induction gone generalizing b with
  | nil =>
    have hb : b = last := hchain
    subst hb
    exact ⟨hlast, by simp⟩
  | cons c rest ih =>
    obtain ⟨rfl, hnone, hsealed, q, hq, hrest⟩ := hchain
    obtain ⟨hfirst, hall⟩ := ih hrest
    rw [h.isSealed] at hsealed
    rw [h.preds] at hq
    have hback : d₀.Brings made x c v := .back (h.unbound hnone) hsealed hq hfirst
    refine ⟨hback, fun e he => ?_⟩
    rcases List.mem_cons.1 he with rfl | he
    · exact hback
    · exact hall e he

/-- A value is kept along a chain that leads to it. -/
theorem keep (h : Stage P d₀ jobs made log tasks d) {gone : List Block} {last : Block}
    (hchain : d.Chain x b gone last) (hlast : d.known.value? x last = some v)
    (hP : ∀ c ∈ gone, P x c) : Stage P d₀ jobs made log tasks (d.bindAll x gone v) := by
  have hkept : ∀ {y e u}, d.known.value? y e = some u →
      (d.bindAll x gone v).known.value? y e = some u :=
    fun hu => Draft.value?_bindAll_of_some (fun c hc => (hchain.step hc).1) hu
  obtain ⟨-, hbrings⟩ := h.brings_chain hchain (h.bindings.brings hlast)
  obtain ⟨hincomplete, hsealed, htypes, howners⟩ := Variables.frame_writeAll x v gone d.known
  have hbuilder : (d.bindAll x gone v).builder = d.builder := rfl
  apply h.bind hbuilder htypes hsealed howners hincomplete hkept
  intro y e u hu
  rw [Draft.value?_bindAll] at hu
  split at hu
  · next he =>
    obtain ⟨rfl, he⟩ := he
    cases hu
    refine .inr ⟨hP e he, hbrings e he, fun q _ hq => ?_⟩
    -- The predecessor is the next block of the chain, or its end.
    obtain ⟨-, -, q', hq', hnext⟩ := hchain.step he
    rw [h.preds, hq] at hq'
    cases hq'
    rcases hnext with hmem | rfl
    · rw [Draft.value?_bindAll, if_pos ⟨rfl, hmem⟩]
    · exact hkept hlast
  · exact .inl hu

/-- The phis of tasks exist. -/
theorem task_lt (h : Stage P d₀ jobs made log tasks d)
    (hjobs : ∀ p ∈ jobs, p.phi.index < d₀.builder.valueCount) {t : Task} (ht : t ∈ log ++ tasks) :
    t.phi.phi.index < d.builder.valueCount := by
  have hmem : t ∈ (log ++ tasks).filter (·.phi.phi = t.phi.phi) :=
    List.mem_filter.2 ⟨ht, by simp⟩
  rw [h.balance.total] at hmem
  obtain ⟨p, hp, hpt⟩ := List.mem_flatMap.1 (List.mem_of_mem_filter hmem)
  obtain ⟨q, -, rfl⟩ := List.mem_map.1 hpt
  rcases List.mem_append.1 hp with hp | hp
  · have := hjobs p hp
    have := h.outline.valueCount
    show p.phi.index < _
    omega
  · exact (h.lt_of_mem (List.mem_of_mem_filter hp)).2

/-- The value that is new next belongs to no task. -/
theorem filter_new (h : Stage P d₀ jobs made log tasks d)
    (hjobs : ∀ p ∈ jobs, p.phi.index < d₀.builder.valueCount) :
    (log ++ tasks).filter (·.phi.phi = ⟨d.builder.valueCount⟩) = [] := by
  apply List.filter_eq_nil_iff.2
  intro t ht heq
  have hlt := h.task_lt hjobs ht
  rw [of_decide_eq_true heq] at hlt
  exact Nat.lt_irrefl _ hlt

section Make

variable {ty : Ty} (h : Stage P d₀ jobs made log tasks d)
  (hjobs : ∀ p ∈ jobs, p.phi.index < d₀.builder.valueCount)
  (hnone : d.known.value? x c = none) (htype : d.known.type? x = some ty)
include h hnone

theorem given_make (v : Value) : (d.make x c ty).given log v = d.given log v :=
  h.given_congr (Draft.extends_make hnone).value v

theorem bindings_make (hP : P x c) (hstop : d.known.isSealed c = true → ∀ q, d.builder.preds c ≠ [q]) :
    Bindings P d₀ (made ++ [⟨x, c, ⟨d.builder.valueCount⟩⟩]) (d.make x c ty) where
  stops p hp := by
    rcases List.mem_append.1 hp with hp | hp
    · exact h.bindings.stops p hp
    · rw [List.mem_singleton.1 hp]
      refine ⟨hP, h.unbound hnone, fun hc q hq => ?_⟩
      rw [← h.isSealed] at hc
      rw [← h.preds] at hq
      exact hstop hc q hq
  sites := by
    rw [List.map_append, List.nodup_append]
    -- There is no phi for this site yet, because the variable has no value there.
    refine ⟨h.bindings.sites, by simp, fun site hsite other hother heq => ?_⟩
    obtain ⟨p, hp, rfl⟩ := List.mem_map.1 hsite
    obtain ⟨rfl, rfl⟩ : p.var = x ∧ p.block = c := by simpa [← heq, OpenPhi.site] using hother
    rw [h.bindings.phis p hp] at hnone
    cases hnone
  phis p hp := by
    rcases List.mem_append.1 hp with hp | hp
    · exact (Draft.extends_make hnone).value (h.bindings.phis p hp)
    · rw [List.mem_singleton.1 hp]
      exact Draft.value?_make_self
  kept hu := (Draft.extends_make hnone).value (h.bindings.kept hu)
  brings {y e u} hu := by
    rw [Draft.value?_make] at hu
    split at hu
    · next he =>
      obtain ⟨rfl, rfl⟩ := he
      cases hu
      exact .phi (by simp)
    · exact (h.bindings.brings hu).mono
  reached {y e u} hfree hu := by
    rw [Draft.value?_make] at hu
    split at hu
    · next he =>
      obtain ⟨rfl, rfl⟩ := he
      exact hP
    · exact h.bindings.reached hfree hu
  chained {y e q u} hfree hu hsealed hpreds := by
    rw [Draft.value?_make] at hu
    split at hu
    · next he =>
      obtain ⟨rfl, rfl⟩ := he
      rw [← h.isSealed] at hsealed
      rw [← h.preds] at hpreds
      exact absurd hpreds (hstop hsealed q)
    · exact (Draft.extends_make hnone).value (h.bindings.chained hfree hu hsealed hpreds)

include hjobs htype

theorem outline_make :
    Outline d₀ (made ++ [⟨x, c, ⟨d.builder.valueCount⟩⟩]) log (d.make x c ty) where
  current := h.outline.current
  name := h.outline.name
  params := h.outline.params
  result := h.outline.result
  blockCount := by
    unfold Draft.make
    rw [Draft.blockCount_settle, h.outline.blockCount]
  info e he := by
    unfold Draft.make
    rw [Draft.info_settle, h.outline.blockCount, h.outline.info e he]
    by_cases hc : e = c
    · subst hc
      simp [he, List.filter_append]
    · have hc' : c ≠ e := Ne.symm hc
      simp [hc, hc', List.filter_append]
  valueCount := by
    unfold Draft.make
    rw [Draft.valueCount_settle, h.outline.valueCount, List.length_append]
    rfl
  numbers := by
    rw [List.map_append, h.outline.numbers, List.length_append, h.outline.valueCount]
    simp [List.range'_1_concat]
  old v hv := by
    have hlt : v.index < d.builder.valueCount := by
      rw [h.outline.valueCount]
      omega
    rw [h.given_make hnone]
    unfold Draft.make
    rw [Draft.valueInfo_settle hlt]
    exact h.outline.old v hv
  new p hp := by
    rw [h.given_make hnone]
    rcases List.mem_append.1 hp with hp | hp
    · unfold Draft.make
      rw [Draft.valueInfo_settle (h.lt_of_mem hp).2]
      exact h.outline.new p hp
    · rw [List.mem_singleton.1 hp]
      refine ⟨ty, h.type? x ▸ htype, ?_⟩
      have hnothing : log.filter (·.phi.phi = ⟨d.builder.valueCount⟩) = [] := by
        have hfilter := h.filter_new hjobs
        rw [List.filter_append] at hfilter
        exact (List.append_eq_nil_iff.1 hfilter).1
      unfold Draft.make Draft.given
      rw [Draft.valueInfo_settle_new, hnothing]
      rfl
  types := by
    have hframe := Variables.frame_writeAll x ⟨d.builder.valueCount⟩ [c]
      (d.placePhi x c ty (if d.known.isSealed c then [] else [⟨x, c, ⟨d.builder.valueCount⟩⟩])).known
    exact hframe.2.2.1.trans h.outline.types
  sealedBlocks := by
    have hframe := Variables.frame_writeAll x ⟨d.builder.valueCount⟩ [c]
      (d.placePhi x c ty (if d.known.isSealed c then [] else [⟨x, c, ⟨d.builder.valueCount⟩⟩])).known
    exact hframe.2.1.trans h.outline.sealedBlocks
  owner v := by
    unfold Draft.make
    rw [Draft.owner?_settle, List.find?_append, h.outline.owner]
    by_cases hv : v = ⟨d.builder.valueCount⟩
    · -- The number is new, so no earlier phi has it.
      have hold : made.find? (·.phi = v) = none := by
        apply List.find?_eq_none.2
        intro p hp heq
        have hlt := (h.lt_of_mem hp).2
        rw [of_decide_eq_true heq, hv] at hlt
        exact Nat.lt_irrefl _ hlt
      rw [hold, if_pos hv, hv]
      simp
    · have hv' : (⟨d.builder.valueCount⟩ : Value) ≠ v := Ne.symm hv
      rw [if_neg hv]
      simp [hv']
  incomplete := by
    unfold Draft.make
    rw [Draft.incomplete_settle, h.outline.incomplete, List.filter_append, h.isSealed,
      List.append_assoc]
    congr 2
    cases hc : d₀.known.isSealed c <;> simp [hc]

end Make

theorem balance_make {ty : Ty} {before after : List Task}
    (h : Stage P d₀ jobs made log (before ++ after) d)
    (hjobs : ∀ p ∈ jobs, p.phi.index < d₀.builder.valueCount)
    (hnone : d.known.value? x c = none) :
    Balance d₀ jobs (made ++ [⟨x, c, ⟨d.builder.valueCount⟩⟩]) log
      (before ++ (if d.known.isSealed c then d₀.tasksOf ⟨x, c, ⟨d.builder.valueCount⟩⟩ else []) ++
        after) (d.make x c ty) where
  given t ht := by
    obtain ⟨u, hu⟩ := Option.isSome_iff_exists.1 (h.balance.given t ht)
    rw [(Draft.extends_make hnone).value hu]
    rfl
  total v := by
    have htotal := h.balance.total v
    have hnew := h.filter_new hjobs
    generalize hphi : (⟨x, c, ⟨d.builder.valueCount⟩⟩ : OpenPhi) = p
    generalize htasks : (if d.known.isSealed c then d₀.tasksOf p else []) = tasks
    have hmore : [p].filter (fun p => d₀.known.isSealed p.block) =
        if d.known.isSealed c then [p] else [] := by
      rw [h.isSealed, ← hphi]
      cases hc : d₀.known.isSealed c <;> simp [hc]
    have hflat : (if d.known.isSealed c then [p] else []).flatMap d₀.tasksOf = tasks := by
      rw [← htasks]
      split <;> simp
    rw [List.filter_append (made), hmore, ← List.append_assoc jobs, List.flatMap_append, hflat,
      List.filter_append (List.flatMap _ _), ← htotal]
    simp only [List.filter_append]
    -- The new tasks are the only ones of the new phi.
    by_cases hv : v = ⟨d.builder.valueCount⟩
    · subst hv
      simp only [List.filter_append, List.append_eq_nil_iff] at hnew
      simp [hnew]
    · have hnone : tasks.filter (·.phi.phi = v) = [] := by
        apply List.filter_eq_nil_iff.2
        intro t ht heq
        have hmem : t ∈ d₀.tasksOf p := by
          rw [← htasks] at ht
          split at ht
          · exact ht
          · cases ht
        obtain ⟨q, -, rfl⟩ := List.mem_map.1 hmem
        rw [← hphi] at heq
        exact hv (of_decide_eq_true heq).symm
      simp [hnone]

/-- A phi is made where the search goes on in no single block. Its operands are to be given at any time
from then on. -/
theorem make {ty : Ty} {before after : List Task}
    (h : Stage P d₀ jobs made log (before ++ after) d)
    (hjobs : ∀ p ∈ jobs, p.phi.index < d₀.builder.valueCount) (hP : P x c)
    (hnone : d.known.value? x c = none)
    (hstop : d.known.isSealed c = true → ∀ q, d.builder.preds c ≠ [q])
    (htype : d.known.type? x = some ty) :
    Stage P d₀ jobs (made ++ [⟨x, c, ⟨d.builder.valueCount⟩⟩]) log
      (before ++ (if d.known.isSealed c then d₀.tasksOf ⟨x, c, ⟨d.builder.valueCount⟩⟩ else []) ++
        after) (d.make x c ty) :=
  ⟨h.outline_make hjobs hnone htype, h.bindings_make hnone hP hstop, h.balance_make hjobs hnone⟩

/-- The next operand is given. -/
theorem give {t : Task} (h : Stage P d₀ jobs made log (t :: tasks) d)
    (hjobs : ∀ p ∈ jobs, p.phi.index < d₀.builder.valueCount)
    (hvalue : d.known.value? t.phi.var t.pred = some v) :
    Stage P d₀ jobs made (log ++ [t]) tasks (d.addIncoming t.phi.phi t.pred v) := by
  have hoperand : d.operand t = (t.pred, v) := by
    unfold Draft.operand
    rw [hvalue]
    rfl
  -- One phi gets an operand more, all others keep what they have.
  have hgiven : ∀ u, (d.addIncoming t.phi.phi t.pred v).given (log ++ [t]) u =
      d.given log u ++ if t.phi.phi = u then [(t.pred, v)] else [] := by
    intro u
    show ((log ++ [t]).filter (·.phi.phi = u)).map d.operand = _
    unfold Draft.given
    rw [List.filter_append, List.map_append]
    by_cases hu : t.phi.phi = u
    · simp [hu, hoperand]
    · simp [hu]
  have hlt : t.phi.phi.index < d.builder.valueCount := h.task_lt hjobs (by simp)
  have hinfo : ∀ u, (d.addIncoming t.phi.phi t.pred v).builder.valueInfo u =
      if t.phi.phi = u then Builder.addOperand (d.builder.valueInfo u) t.pred v
      else d.builder.valueInfo u := by
    intro u
    rw [show (d.addIncoming t.phi.phi t.pred v).builder.valueInfo u = _ from
      Builder.valueInfo_addIncoming ..]
    by_cases hu : t.phi.phi = u
    · subst hu
      simp [hlt]
    · simp [hu, Ne.symm hu]
  refine ⟨{ h.outline with valueCount := ?_, old := ?_, new := ?_ }, { h.bindings with }, ?_, ?_⟩
  · rw [← h.outline.valueCount]
    exact Builder.valueCount_addIncoming ..
  · intro u hu
    rw [hinfo, hgiven, h.outline.old u hu]
    split
    · rw [addOperands_snoc]
    · rw [List.append_nil]
  · intro p hp
    obtain ⟨ty, htype, hp'⟩ := h.outline.new p hp
    refine ⟨ty, htype, ?_⟩
    rw [hinfo, hgiven, hp']
    split
    · rfl
    · rw [List.append_nil]
  · intro t' ht'
    rcases List.mem_append.1 ht' with ht' | ht'
    · exact h.balance.given t' ht'
    · rw [List.mem_singleton.1 ht']
      show (d.known.value? t.phi.var t.pred).isSome = true
      rw [hvalue]
      rfl
  · intro u
    rw [← h.balance.total u, List.append_assoc]
    rfl

end Stage

end Abacus.Lowering
