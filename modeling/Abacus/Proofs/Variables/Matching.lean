import Mathlib.Data.List.Nodup
import Mathlib.Logic.Equiv.Defs
import Abacus.Proofs.Variables.Worklist

/-!
# The order of a search does not matter

Two searches that start from one draft and ask for the same things make phis for the same variables in
the same blocks, since these are determined by the blocks that a search comes to (`Draft.Visits`) and by
where it stops there (`Draft.Stop`). So the phis of one are those of the other up to their numbers, and
with them everything that the searches leave behind.

* `Draft.Standing` — what a draft mentions exists;
* `Draft.Corresponds` — two drafts are the same up to the numbers of new phis;
* `Twins`, `Twins.numbers` — the phis of two searches, one to one;
* `Stage.corresponds` — two searches that have come to their ends leave corresponding drafts.
-/

namespace Abacus.Lowering

open Abacus.Flow (Value Block Ty Inst Terminator Builder BlockInfo ValueInfo)

/-! ## Drafts that correspond -/

/-- A phi with another number. -/
def OpenPhi.renumber (ρ : Equiv.Perm Value) (p : OpenPhi) : OpenPhi := { p with phi := ρ p.phi }

namespace Draft

/-- The numbers that a draft mentions stand for blocks and values that there are, and each phi waits
only once. -/
structure Standing (d : Draft) : Prop where
  preds : ∀ {c q}, q ∈ d.builder.preds c → q.index < d.builder.blockCount
  bound : ∀ {x c v}, d.known.value? x c = some v → v.index < d.builder.valueCount
  waiting : ∀ p ∈ d.known.incomplete, p.phi.index < d.builder.valueCount
  apart : (d.known.incomplete.map OpenPhi.phi).Nodup

/-- What has become of `d` in two ways is the same, up to the numbers `ρ` of the phis that are new and
up to the order in which these stand in their blocks and wait. -/
structure Corresponds (d : Draft) (ρ : Equiv.Perm Value) (d₁ d₂ : Draft) : Prop where
  fixed : ∀ v, v.index < d.builder.valueCount → ρ v = v
  current : d₂.builder.current = d₁.builder.current
  name : d₂.builder.function.name = d₁.builder.function.name
  params : d₂.builder.function.params = d₁.builder.function.params
  result : d₂.builder.function.result = d₁.builder.function.result
  blockCount : d₂.builder.blockCount = d₁.builder.blockCount
  valueCount : d₂.builder.valueCount = d₁.builder.valueCount
  info : ∀ c, c.index < d.builder.blockCount → ∃ new₁ new₂,
    d₁.builder.info c = { d.builder.info c with phis := (d.builder.info c).phis ++ new₁ } ∧
      d₂.builder.info c = { d.builder.info c with phis := (d.builder.info c).phis ++ new₂ } ∧
      new₂.Perm (new₁.map ρ)
  old : ∀ v, v.index < d.builder.valueCount → ∃ operands,
    d₁.builder.valueInfo v = addOperands (d.builder.valueInfo v) operands ∧
      d₂.builder.valueInfo v = addOperands (d.builder.valueInfo v) (operands.map (Prod.map id ρ))
  new : ∀ v, d.builder.valueCount ≤ v.index → v.index < d₁.builder.valueCount →
    ∃ ty block operands, d₁.builder.valueInfo v = ⟨ty, .phi operands, block⟩ ∧
      d₂.builder.valueInfo (ρ v) = ⟨ty, .phi (operands.map (Prod.map id ρ)), block⟩ ∧
      operands.map Prod.fst = if d.known.isSealed block then d.builder.preds block else []
  value : ∀ x c, d₂.known.value? x c = (d₁.known.value? x c).map ρ
  incomplete : ∃ old new₁ new₂, d₁.known.incomplete = old ++ new₁ ∧
    d₂.known.incomplete = old ++ new₂ ∧ new₂.Perm (new₁.map (OpenPhi.renumber ρ)) ∧
      ∀ p ∈ old, p ∈ d.known.incomplete
  sealedBlocks : d₂.known.sealedBlocks = d₁.known.sealedBlocks
  types : d₂.known.types = d₁.known.types
  owner : ∀ v, d₂.known.owner? (ρ v) = d₁.known.owner? v

end Draft

/-! ## The phis of two searches -/

/-- An element of a list, apart from all others. -/
theorem filter_of_nodup {α β : Type} [DecidableEq β] {f : α → β} {l : List α}
    (hnodup : (l.map f).Nodup) {a : α} (ha : a ∈ l) {b : β} (hb : f a = b) :
    l.filter (fun e => f e = b) = [a] := by
  induction l with
  | nil => cases ha
  | cons e rest ih =>
    rw [List.map_cons, List.nodup_cons] at hnodup
    rcases List.mem_cons.1 ha with rfl | ha
    · have hnone : rest.filter (fun e => f e = b) = [] := by
        apply List.filter_eq_nil_iff.2
        intro o ho heq
        apply hnodup.1
        rw [hb, ← of_decide_eq_true heq]
        exact List.mem_map_of_mem ho
      rw [List.filter_cons_of_pos (by simp [hb]), hnone]
    · have hne : f e ≠ b := by
        rintro rfl
        apply hnodup.1
        rw [← hb]
        exact List.mem_map_of_mem ha
      rw [List.filter_cons_of_neg (by simp [hne]), ih hnodup.2 ha]

theorem find?_of_nodup {α β : Type} [DecidableEq β] {f : α → β} {l : List α}
    (hnodup : (l.map f).Nodup) {a : α} (ha : a ∈ l) {b : β} (hb : f a = b) :
    l.find? (fun e => f e = b) = some a := by
  rw [← List.head?_filter, filter_of_nodup hnodup ha hb]
  rfl

theorem find?_phi_of_not_mem {made : List OpenPhi} {v : Value} (hv : v ∉ made.map OpenPhi.phi) :
    made.find? (fun p => p.phi = v) = none := by
  apply List.find?_eq_none.2
  intro p hp heq
  exact hv (List.mem_map.2 ⟨p, hp, of_decide_eq_true heq⟩)

/-- Phis that stand for the same variables in the same blocks, and have the same numbers altogether. -/
structure Twins (made₁ made₂ : List OpenPhi) : Prop where
  apart₁ : (made₁.map OpenPhi.site).Nodup
  apart₂ : (made₂.map OpenPhi.site).Nodup
  sites : ∀ s, s ∈ made₁.map OpenPhi.site ↔ s ∈ made₂.map OpenPhi.site
  numbered₁ : (made₁.map OpenPhi.phi).Nodup
  numbered₂ : (made₂.map OpenPhi.phi).Nodup
  phis : ∀ v, v ∈ made₁.map OpenPhi.phi ↔ v ∈ made₂.map OpenPhi.phi

/-- The number that a phi has in the second list, by the one that it has in the first. -/
def renumber (made₁ made₂ : List OpenPhi) (v : Value) : Value :=
  match made₁.find? (fun p => p.phi = v) with
  | none => v
  | some p => ((made₂.find? fun q => q.site = p.site).map OpenPhi.phi).getD v

namespace Twins

variable {made₁ made₂ : List OpenPhi} {x : SymbolId} {c : Block} {v w : Value}

theorem symm (h : Twins made₁ made₂) : Twins made₂ made₁ :=
  ⟨h.apart₂, h.apart₁, fun s => (h.sites s).symm, h.numbered₂, h.numbered₁,
    fun v => (h.phis v).symm⟩

/-- Each phi has a twin. -/
theorem exists_twin (h : Twins made₁ made₂) (hv : ⟨x, c, v⟩ ∈ made₁) : ∃ w, ⟨x, c, w⟩ ∈ made₂ := by
  obtain ⟨⟨y, e, w⟩, hw, hsite⟩ := List.mem_map.1 ((h.sites ⟨x, c⟩).1 (List.mem_map.2 ⟨_, hv, rfl⟩))
  cases hsite
  exact ⟨w, hw⟩

theorem renumber_eq (h : Twins made₁ made₂) (hv : ⟨x, c, v⟩ ∈ made₁) (hw : ⟨x, c, w⟩ ∈ made₂) :
    renumber made₁ made₂ v = w := by
  have hfirst : made₁.find? (fun p => p.phi = v) = some ⟨x, c, v⟩ :=
    find?_of_nodup h.numbered₁ hv rfl
  have hsecond : made₂.find? (fun q => q.site = ⟨x, c⟩) = some ⟨x, c, w⟩ :=
    find?_of_nodup h.apart₂ hw rfl
  unfold renumber
  rw [hfirst]
  show ((made₂.find? fun q => q.site = ⟨x, c⟩).map OpenPhi.phi).getD v = w
  rw [hsecond]
  rfl

/-- Only phis get other numbers. -/
theorem renumber_of_not_mem (hv : v ∉ made₁.map OpenPhi.phi) : renumber made₁ made₂ v = v := by
  unfold renumber
  rw [find?_phi_of_not_mem hv]

theorem renumber_renumber (h : Twins made₁ made₂) (v : Value) :
    renumber made₂ made₁ (renumber made₁ made₂ v) = v := by
  by_cases hv : v ∈ made₁.map OpenPhi.phi
  · obtain ⟨⟨x, c, v⟩, hmem, rfl⟩ := List.mem_map.1 hv
    obtain ⟨w, hw⟩ := h.exists_twin hmem
    rw [h.renumber_eq hmem hw, h.symm.renumber_eq hw hmem]
  · rw [renumber_of_not_mem hv, renumber_of_not_mem fun h' => hv ((h.phis v).2 h')]

/-- The phis of two searches, one to one. -/
def numbers (h : Twins made₁ made₂) : Equiv.Perm Value where
  toFun := renumber made₁ made₂
  invFun := renumber made₂ made₁
  left_inv := h.renumber_renumber
  right_inv := h.symm.renumber_renumber

theorem numbers_eq (h : Twins made₁ made₂) (hv : ⟨x, c, v⟩ ∈ made₁) (hw : ⟨x, c, w⟩ ∈ made₂) :
    h.numbers v = w := h.renumber_eq hv hw

theorem numbers_of_not_mem (h : Twins made₁ made₂) (hv : v ∉ made₁.map OpenPhi.phi) :
    h.numbers v = v := renumber_of_not_mem hv

theorem mem (h : Twins made₁ made₂) (hv : ⟨x, c, v⟩ ∈ made₁) : ⟨x, c, h.numbers v⟩ ∈ made₂ := by
  obtain ⟨w, hw⟩ := h.exists_twin hv
  rw [h.numbers_eq hv hw]
  exact hw

/-- The second list is the first one with other numbers, in another order. -/
theorem perm (h : Twins made₁ made₂) : made₂.Perm (made₁.map (OpenPhi.renumber h.numbers)) := by
  have hsite : (made₁.map (OpenPhi.renumber h.numbers)).map OpenPhi.site =
      made₁.map OpenPhi.site := by
    rw [List.map_map]
    rfl
  apply (List.perm_ext_iff_of_nodup h.apart₂.of_map (hsite ▸ h.apart₁).of_map).2
  intro ⟨x, c, w⟩
  constructor
  · intro hw
    obtain ⟨v, hv⟩ := h.symm.exists_twin hw
    refine List.mem_map.2 ⟨⟨x, c, v⟩, hv, ?_⟩
    unfold OpenPhi.renumber
    rw [h.numbers_eq hv hw]
  · intro hw
    obtain ⟨⟨y, e, v⟩, hv, heq⟩ := List.mem_map.1 hw
    cases heq
    exact h.mem hv

end Twins

/-! ## Where searches end -/

/-- Tasks of some phis, for one of them. -/
theorem filter_flatMap_tasksOf (d : Draft) (phis : List OpenPhi) (v : Value) :
    (phis.flatMap d.tasksOf).filter (·.phi.phi = v) =
      (phis.filter (·.phi = v)).flatMap d.tasksOf := by
  induction phis with
  | nil => rfl
  | cons p rest ih =>
    rw [List.flatMap_cons, List.filter_append, ih]
    by_cases hp : p.phi = v
    · have hall : (d.tasksOf p).filter (·.phi.phi = v) = d.tasksOf p := by
        simp [Draft.tasksOf, List.filter_eq_self, hp]
      rw [hall, List.filter_cons_of_pos (by simp [hp]), List.flatMap_cons]
    · have hnone : (d.tasksOf p).filter (·.phi.phi = v) = [] := by
        simp [Draft.tasksOf, List.filter_eq_nil_iff, hp]
      rw [hnone, List.filter_cons_of_neg (by simp [hp]), List.nil_append]

namespace Stage

section

variable {P : SymbolId → Block → Prop} {d₀ d : Draft} {jobs made : List OpenPhi}
  {log : List Task} {x : SymbolId} {b c : Block} {v : Value}
  (h : Stage P d₀ jobs made log [] d)
include h

theorem mem_phis : v ∈ made.map OpenPhi.phi ↔
    d₀.builder.valueCount ≤ v.index ∧ v.index < d.builder.valueCount := by
  have hnumbers := h.outline.numbers
  rw [h.outline.valueCount, ← List.mem_range'_1, ← hnumbers]
  constructor
  · intro hv
    obtain ⟨p, hp, rfl⟩ := List.mem_map.1 hv
    exact List.mem_map.2 ⟨p, hp, rfl⟩
  · intro hv
    obtain ⟨p, hp, hindex⟩ := List.mem_map.1 hv
    refine List.mem_map.2 ⟨p, hp, ?_⟩
    obtain ⟨x, c, ⟨i⟩⟩ := p
    obtain ⟨j⟩ := v
    exact congrArg Value.mk hindex

theorem nodup_phis : (made.map OpenPhi.phi).Nodup := by
  have hindices : ((made.map OpenPhi.phi).map Value.index).Nodup := by
    rw [List.map_map, show (Value.index ∘ OpenPhi.phi) = fun p => p.phi.index from rfl,
      h.outline.numbers]
    exact List.nodup_range'
  exact hindices.of_map

/-- All operands have been given. -/
theorem filter_log (v : Value) : log.filter (·.phi.phi = v) =
    ((jobs ++ made.filter fun p => d₀.known.isSealed p.block).filter (·.phi = v)).flatMap
      d₀.tasksOf := by
  have htotal := h.balance.total v
  rw [List.append_nil] at htotal
  rw [htotal, filter_flatMap_tasksOf]

theorem filter_log_old (hv : v.index < d₀.builder.valueCount) :
    log.filter (·.phi.phi = v) = (jobs.filter (·.phi = v)).flatMap d₀.tasksOf := by
  have hnone : (made.filter fun p => d₀.known.isSealed p.block).filter (·.phi = v) = [] := by
    apply List.filter_eq_nil_iff.2
    intro p hp heq
    have hle := (h.lt_of_mem (List.mem_of_mem_filter hp)).1
    rw [of_decide_eq_true heq] at hle
    omega
  rw [h.filter_log, List.filter_append, hnone, List.append_nil]

theorem filter_log_new (hjobs : ∀ p ∈ jobs, p.phi.index < d₀.builder.valueCount) {p : OpenPhi}
    (hp : p ∈ made) : log.filter (·.phi.phi = p.phi) =
      if d₀.known.isSealed p.block then d₀.tasksOf p else [] := by
  have hnone : jobs.filter (·.phi = p.phi) = [] := by
    apply List.filter_eq_nil_iff.2
    intro o ho heq
    have hlt := hjobs o ho
    have hle := (h.lt_of_mem hp).1
    rw [of_decide_eq_true heq] at hlt
    omega
  have honly := filter_of_nodup h.nodup_phis hp rfl
  rw [h.filter_log, List.filter_append, hnone, List.nil_append, List.filter_comm, honly]
  by_cases hsealed : d₀.known.isSealed p.block
  · simp [hsealed]
  · simp [hsealed]

/-- It does not matter in which order the search has started with its phis. -/
theorem reorder {jobs' : List OpenPhi} (hperm : jobs.Perm jobs')
    (hnodup : (jobs.map OpenPhi.phi).Nodup) : Stage P d₀ jobs' made log [] d where
  outline := h.outline
  bindings := h.bindings
  balance :=
    { given := h.balance.given
      total := by
        intro v
        -- Of one phi there is at most one entry, whatever the order.
        have hsame : jobs.filter (·.phi = v) = jobs'.filter (·.phi = v) := by
          by_cases hv : v ∈ jobs.map OpenPhi.phi
          · obtain ⟨p, hp, rfl⟩ := List.mem_map.1 hv
            have hnodup' : (jobs'.map OpenPhi.phi).Nodup := (hperm.map _).nodup_iff.1 hnodup
            rw [filter_of_nodup hnodup hp rfl, filter_of_nodup hnodup' (hperm.mem_iff.1 hp) rfl]
          · have hnone : jobs.filter (·.phi = v) = [] := by
              apply List.filter_eq_nil_iff.2
              intro p hp heq
              exact hv (List.mem_map.2 ⟨p, hp, of_decide_eq_true heq⟩)
            have hnone' := hperm.filter (·.phi = v)
            rw [hnone] at hnone'
            rw [hnone, hnone'.nil_eq]
        rw [List.append_nil, h.filter_log, filter_flatMap_tasksOf, List.filter_append,
          List.filter_append, hsame] }

/-- What has been asked for is known. -/
theorem isSome_of_mem {p : OpenPhi} {q : Block}
    (hp : p ∈ jobs ∨ p ∈ made ∧ d₀.known.isSealed p.block = true)
    (hq : q ∈ d₀.builder.preds p.block) : (d.known.value? p.var q).isSome := by
  have hmem : (⟨p, q⟩ : Task) ∈ log.filter (·.phi.phi = p.phi) := by
    rw [h.filter_log]
    refine List.mem_flatMap.2 ⟨p, List.mem_filter.2 ⟨?_, by simp⟩, List.mem_map.2 ⟨q, hq, rfl⟩⟩
    rcases hp with hp | ⟨hp, hsealed⟩
    · exact List.mem_append_left _ hp
    · exact List.mem_append_right _ (List.mem_filter.2 ⟨hp, hsealed⟩)
  exact h.balance.given _ (List.mem_of_mem_filter hmem)

/-- Where a search stops there is a phi now. -/
theorem mem_of_stop (hstop : d₀.Stop x c) (hv : d.known.value? x c = some v) :
    ⟨x, c, v⟩ ∈ made := by
  cases h.bindings.brings hv with
  | bound hbound =>
    rw [hstop.unbound] at hbound
    cases hbound
  | phi hmem => exact hmem
  | back _ hsealed hpreds _ => exact absurd hpreds (hstop.noChain hsealed _)

/-- Whatever a search comes to from a block that has a value has one. -/
theorem isSome_of_visits (hvisits : d₀.Visits x b c) (hb : (d.known.value? x b).isSome) :
    (d.known.value? x c).isSome := by
  induction hvisits with
  | start => exact hb
  | @back e q _ hnone hsealed hq ih =>
    obtain ⟨v, hv⟩ := Option.isSome_iff_exists.1 ih
    -- The value has come from here along a chain, or it is a phi, whose operands have been read.
    by_cases hsingle : d₀.builder.preds e = [q]
    · rw [h.bindings.chained hnone hv hsealed hsingle]
      rfl
    · have hstop : d₀.Stop x e := by
        refine ⟨hnone, fun _ q' hq' => ?_⟩
        rw [hq'] at hq hsingle
        rw [List.mem_singleton.1 hq] at hsingle
        exact hsingle rfl
      exact h.isSome_of_mem (p := ⟨x, e, v⟩) (.inr ⟨h.mem_of_stop hstop hv, hsealed⟩) hq

end

section

variable {P : SymbolId → Block → Prop} {d₀ d₁ d₂ : Draft} {jobs made₁ made₂ : List OpenPhi}
  {log₁ log₂ : List Task} {x : SymbolId} {b c : Block} {v : Value}

/-- Two searches that have come everywhere have made phis for the same variables in the same blocks. -/
theorem twins (h₁ : Stage P d₀ jobs made₁ log₁ [] d₁) (h₂ : Stage P d₀ jobs made₂ log₂ [] d₂)
    (hall₁ : ∀ x c, P x c → (d₁.known.value? x c).isSome)
    (hall₂ : ∀ x c, P x c → (d₂.known.value? x c).isSome) : Twins made₁ made₂ := by
  -- The sites of a finished search are the stops in the blocks that it comes to.
  have hsites : ∀ {made log d}, Stage P d₀ jobs made log [] d →
      (∀ x c, P x c → (d.known.value? x c).isSome) →
        ∀ s : Site, s ∈ made.map OpenPhi.site ↔ P s.var s.block ∧ d₀.Stop s.var s.block := by
    intro made log d h hall s
    constructor
    · intro hs
      obtain ⟨p, hp, rfl⟩ := List.mem_map.1 hs
      exact h.bindings.stops p hp
    · rintro ⟨hP, hstop⟩
      obtain ⟨v, hv⟩ := Option.isSome_iff_exists.1 (hall _ _ hP)
      exact List.mem_map.2 ⟨_, h.mem_of_stop hstop hv, rfl⟩
  have hsame : ∀ s, s ∈ made₁.map OpenPhi.site ↔ s ∈ made₂.map OpenPhi.site := fun s =>
    (hsites h₁ hall₁ s).trans (hsites h₂ hall₂ s).symm
  have hlength : made₁.length = made₂.length := by
    have hperm := (List.perm_ext_iff_of_nodup h₁.bindings.sites h₂.bindings.sites).2 hsame
    simpa using hperm.length_eq
  refine ⟨h₁.bindings.sites, h₂.bindings.sites, hsame, h₁.nodup_phis, h₂.nodup_phis, fun v => ?_⟩
  rw [h₁.mem_phis, h₂.mem_phis, h₁.outline.valueCount, h₂.outline.valueCount, hlength]

variable (h₁ : Stage P d₀ jobs made₁ log₁ [] d₁) (h₂ : Stage P d₀ jobs made₂ log₂ [] d₂)
  (hstanding : d₀.Standing) (ht : Twins made₁ made₂)
include h₁ ht

/-- Only new values get other numbers. -/
theorem numbers_old (hv : v.index < d₀.builder.valueCount) : ht.numbers v = v := by
  apply ht.numbers_of_not_mem
  rw [h₁.mem_phis]
  omega

include h₂ hstanding

/-- What comes to a block in one search comes there in the other. -/
theorem brings_numbers {w : Value} (hv : d₀.Brings made₁ x c v)
    (hw : d₂.known.value? x c = some w) : w = ht.numbers v := by
  -- Along the way that the value has come in the first search.
  induction hv generalizing w with
  | @bound c v hbound =>
    rw [h₁.numbers_old ht (hstanding.bound hbound)]
    rw [h₂.bindings.kept hbound] at hw
    exact (Option.some.inj hw).symm
  | @phi c v hmem =>
    have hkept := h₂.bindings.phis _ (ht.mem hmem)
    rw [hw] at hkept
    exact Option.some.inj hkept
  | back hnone hsealed hpreds _ ih => exact ih (h₂.bindings.chained hnone hw hsealed hpreds)

theorem value?_numbers (hall₂ : ∀ x c, P x c → (d₂.known.value? x c).isSome)
    (hv : d₁.known.value? x c = some v) : d₂.known.value? x c = some (ht.numbers v) := by
  have hsome : (d₂.known.value? x c).isSome := by
    cases hold : d₀.known.value? x c with
    | some u =>
      rw [h₂.bindings.kept hold]
      rfl
    | none => exact hall₂ x c (h₁.bindings.reached hold hv)
  obtain ⟨w, hw⟩ := Option.isSome_iff_exists.1 hsome
  rw [hw, h₁.brings_numbers h₂ hstanding ht (h₁.bindings.brings hv) hw]

/-- Operands that both have given. -/
theorem map_operand (hall₂ : ∀ x c, P x c → (d₂.known.value? x c).isSome) {tasks : List Task}
    (htasks : ∀ t ∈ tasks, (d₁.known.value? t.phi.var t.pred).isSome) :
    tasks.map d₂.operand = (tasks.map d₁.operand).map (Prod.map id ht.numbers) := by
  rw [List.map_map]
  apply List.map_congr_left
  intro t hmem
  obtain ⟨v, hv⟩ := Option.isSome_iff_exists.1 (htasks t hmem)
  have hv₂ := h₁.value?_numbers h₂ hstanding ht hall₂ hv
  show (t.pred, (d₂.known.value? t.phi.var t.pred).getD default) =
    (t.pred, ht.numbers ((d₁.known.value? t.phi.var t.pred).getD default))
  rw [hv, hv₂]
  rfl

end

/-- Two searches that have come everywhere leave the same behind, up to numbers and order. -/
theorem corresponds {P : SymbolId → Block → Prop} {d₀ d₁ d₂ : Draft}
    {jobs made₁ made₂ : List OpenPhi} {log₁ log₂ : List Task}
    (h₁ : Stage P d₀ jobs made₁ log₁ [] d₁) (h₂ : Stage P d₀ jobs made₂ log₂ [] d₂)
    (hstanding : d₀.Standing) (hjobs : ∀ p ∈ jobs, p.phi.index < d₀.builder.valueCount)
    (hall₁ : ∀ x c, P x c → (d₁.known.value? x c).isSome)
    (hall₂ : ∀ x c, P x c → (d₂.known.value? x c).isSome) :
    ∃ ρ, d₀.Corresponds ρ d₁ d₂ := by
  have ht := h₁.twins h₂ hall₁ hall₂
  have hcount : d₂.builder.valueCount = d₁.builder.valueCount := by
    rw [h₂.outline.valueCount, h₁.outline.valueCount, ht.perm.length_eq, List.length_map]
  have hvalue : ∀ x c v, d₁.known.value? x c = some v → d₂.known.value? x c = some (ht.numbers v) :=
    fun x c v hv => h₁.value?_numbers h₂ hstanding ht hall₂ hv
  have hgiven : ∀ v, ∀ t ∈ log₁.filter (·.phi.phi = v),
      (d₁.known.value? t.phi.var t.pred).isSome :=
    fun v t hmem => h₁.balance.given t (List.mem_of_mem_filter hmem)
  exact ⟨ht.numbers, {
    fixed := fun v hv => h₁.numbers_old ht hv
    current := h₂.outline.current.trans h₁.outline.current.symm
    name := h₂.outline.name.trans h₁.outline.name.symm
    params := h₂.outline.params.trans h₁.outline.params.symm
    result := h₂.outline.result.trans h₁.outline.result.symm
    blockCount := h₂.outline.blockCount.trans h₁.outline.blockCount.symm
    valueCount := hcount
    info := by
      intro c hc
      refine ⟨_, _, h₁.outline.info c hc, h₂.outline.info c hc, ?_⟩
      have hperm := (ht.perm.filter (·.block = c)).map OpenPhi.phi
      rw [List.filter_map, List.map_map] at hperm
      rw [List.map_map]
      exact hperm
    old := by
      intro v hv
      refine ⟨_, h₁.outline.old v hv, ?_⟩
      rw [h₂.outline.old v hv]
      unfold Draft.given
      rw [h₂.filter_log_old hv, ← h₁.filter_log_old hv,
        h₁.map_operand h₂ hstanding ht hall₂ (hgiven v)]
    new := by
      intro v hle hlt
      obtain ⟨⟨x, c, v⟩, hmem, rfl⟩ := List.mem_map.1 (h₁.mem_phis.2 ⟨hle, hlt⟩)
      obtain ⟨ty, htype, hinfo⟩ := h₁.outline.new _ hmem
      obtain ⟨ty', htype', hinfo'⟩ := h₂.outline.new _ (ht.mem hmem)
      obtain rfl : ty = ty' := Option.some.inj (htype.symm.trans htype')
      have hlog := h₁.filter_log_new hjobs hmem
      refine ⟨ty, c, _, hinfo, ?_, ?_⟩
      · -- The number of a phi does not matter for its operands.
        have hlog' : (log₂.filter (·.phi.phi = ht.numbers v)).map d₂.operand =
            (log₁.filter (·.phi.phi = v)).map d₂.operand := by
          rw [hlog, h₂.filter_log_new hjobs (ht.mem hmem)]
          split
          · unfold Draft.tasksOf
            rw [List.map_map, List.map_map]
            rfl
          · rfl
        rw [hinfo']
        unfold Draft.given
        rw [hlog', h₁.map_operand h₂ hstanding ht hall₂ (hgiven v)]
      · unfold Draft.given
        rw [hlog]
        split
        · unfold Draft.tasksOf
          rw [List.map_map, List.map_map]
          exact List.map_id _
        · rfl
    value := by
      intro x c
      cases hv : d₁.known.value? x c with
      | some v => exact hvalue x c v hv
      | none =>
        -- A search that binds something here comes here, and then so does the other.
        cases hw : d₂.known.value? x c with
        | none => rfl
        | some w =>
          have hP := h₂.bindings.reached (h₁.unbound hv) hw
          have hsome := hall₁ x c hP
          rw [hv] at hsome
          cases hsome
    incomplete := by
      refine ⟨_, _, _, h₁.outline.incomplete, h₂.outline.incomplete, ?_, fun p hp => hp⟩
      have hperm := ht.perm.filter fun p => !d₀.known.isSealed p.block
      rw [List.filter_map] at hperm
      exact hperm
    sealedBlocks := h₂.outline.sealedBlocks.trans h₁.outline.sealedBlocks.symm
    types := h₂.outline.types.trans h₁.outline.types.symm
    owner := by
      intro v
      rw [h₁.outline.owner, h₂.outline.owner]
      by_cases hv : v ∈ made₁.map OpenPhi.phi
      · obtain ⟨⟨x, c, v⟩, hmem, rfl⟩ := List.mem_map.1 hv
        have hfirst : made₁.find? (·.phi = v) = some ⟨x, c, v⟩ :=
          find?_of_nodup h₁.nodup_phis hmem rfl
        have hsecond : made₂.find? (·.phi = ht.numbers v) = some ⟨x, c, ht.numbers v⟩ :=
          find?_of_nodup h₂.nodup_phis (ht.mem hmem) rfl
        rw [hfirst, hsecond]
        rfl
      · have hv₂ : v ∉ made₂.map OpenPhi.phi := fun h => hv ((ht.phis v).2 h)
        rw [ht.numbers_of_not_mem hv, find?_phi_of_not_mem hv, find?_phi_of_not_mem hv₂] }⟩

end Stage

end Abacus.Lowering
