import Abacus.Proofs.Variables.Stability

/-!
# Complete joins

A phi that stands for a variable is listed in one block, and is the only one for its variable there. As
long as the block is not sealed the phi has no operands and waits; from then on it has one for each
predecessor, in their order. This holds between any two steps, whatever is written where and read when,
as long as sealed blocks get no further predecessors and phis are left to searches.

* `Draft.Joined` — the bookkeeping, also while a block is being sealed;
* `Joined.searched` — what a search leaves behind, read off the stage in which it ends;
* `Recording.Fair`, `Joined.step` — what is asked of callers, and that every step keeps the bookkeeping;
* `Recording.joins_complete` — what it comes to.

The bookkeeping speaks of the blocks of operands only, not of their values: those are what a variable had
when the operand was given, and a later write does not change them.
-/

namespace Abacus.Lowering

open Abacus.Flow (Value Block Ty Inst Terminator Builder BlockInfo ValueInfo)

/-- The first type that a variable has been given stays. -/
theorem Variables.type?_declare_of_some (known : Variables) (x : SymbolId) (ty : Ty) {y : SymbolId}
    {t : Ty} (h : known.type? y = some t) : (known.declare x ty).type? y = some t := by
  have hmem : y ∈ known.types := Std.TreeMap.mem_iff_isSome_getElem?.2 (by
    rw [show known.types[y]? = some t from h]
    rfl)
  unfold type? declare
  rw [Std.TreeMap.getElem?_insertIfNew, if_neg]
  · exact h
  · rintro ⟨hcmp, hnone⟩
    rw [Std.LawfulEqOrd.eq_of_compare hcmp] at hnone
    exact hnone hmem

/-! ## Searches that have ended -/

theorem addOperands_of_phi {info : ValueInfo} {incoming : List (Block × Value)}
    (h : info.inst = .phi incoming) (operands : List (Block × Value)) :
    addOperands info operands = { info with inst := .phi (incoming ++ operands) } := by
  simp [addOperands, h]

theorem Draft.map_fst_given (d : Draft) (log : List Task) (v : Value) :
    (d.given log v).map Prod.fst = (log.filter (·.phi.phi = v)).map Task.pred := by
  unfold Draft.given
  rw [List.map_map]
  rfl

theorem Draft.map_pred_tasksOf (d : Draft) (p : OpenPhi) :
    (d.tasksOf p).map Task.pred = d.builder.preds p.block := by
  unfold Draft.tasksOf
  rw [List.map_map]
  exact List.map_id _

namespace Stage

variable {P : SymbolId → Block → Prop} {d₀ d : Draft} {jobs made : List OpenPhi}
  {log : List Task} {x : SymbolId} {v : Value} {p : OpenPhi} (h : Stage P d₀ jobs made log [] d)
include h

theorem owner?_of_mem (hp : p ∈ made) : d.known.owner? p.phi = some p.var := by
  rw [h.outline.owner, find?_of_nodup h.nodup_phis hp rfl]
  rfl

theorem owner?_of_lt (hv : v.index < d₀.builder.valueCount) :
    d.known.owner? v = d₀.known.owner? v := by
  have hmem : v ∉ made.map OpenPhi.phi := by
    rw [h.mem_phis]
    omega
  rw [h.outline.owner, find?_phi_of_not_mem hmem]
  rfl

theorem mem_of_owner? (hv : d.known.owner? v = some x) :
    d₀.known.owner? v = some x ∨ ∃ c, ⟨x, c, v⟩ ∈ made := by
  rw [h.outline.owner] at hv
  cases hfind : made.find? (·.phi = v) with
  | none =>
    rw [hfind] at hv
    exact .inl hv
  | some p =>
    rw [hfind] at hv
    have hphi := List.find?_some hfind
    obtain ⟨y, c, w⟩ := p
    cases hv
    have hw : w = v := of_decide_eq_true hphi
    exact .inr ⟨c, hw ▸ List.mem_of_find?_eq_some hfind⟩

/-- A value that exists and is not up for operands stays as it is. -/
theorem valueInfo_of_not_mem (hv : v.index < d₀.builder.valueCount)
    (hjobs : v ∉ jobs.map OpenPhi.phi) : d.builder.valueInfo v = d₀.builder.valueInfo v := by
  have hnone : jobs.filter (·.phi = v) = [] := by
    refine List.filter_eq_nil_iff.2 fun p hp heq => hjobs ?_
    exact List.mem_map.2 ⟨p, hp, of_decide_eq_true heq⟩
  have hgiven : d.given log v = [] := by
    unfold Draft.given
    rw [h.filter_log_old hv, hnone]
    rfl
  rw [h.outline.old v hv, hgiven, addOperands_nil]

/-- A phi that the search has started with has got an operand for each predecessor. -/
theorem preds_of_job (hnodup : (jobs.map OpenPhi.phi).Nodup) (hp : p ∈ jobs)
    (hlt : p.phi.index < d₀.builder.valueCount) (hinst : (d₀.builder.valueInfo p.phi).inst = .phi []) :
    (d.builder.incoming p.phi).map Prod.fst = d₀.builder.preds p.block := by
  have hinfo := h.outline.old p.phi hlt
  rw [addOperands_of_phi hinst] at hinfo
  have hincoming : d.builder.incoming p.phi = d.given log p.phi :=
    Builder.incoming_of_inst (by rw [hinfo]; rfl)
  rw [hincoming, d.map_fst_given, h.filter_log_old hlt, filter_of_nodup hnodup hp rfl,
    List.flatMap_singleton, d₀.map_pred_tasksOf]

/-- A phi that the search has made has an operand for each predecessor, unless it waits. -/
theorem preds_of_made (hjobs : ∀ p ∈ jobs, p.phi.index < d₀.builder.valueCount) (hp : p ∈ made) :
    (d.builder.incoming p.phi).map Prod.fst =
      if d₀.known.isSealed p.block then d₀.builder.preds p.block else [] := by
  obtain ⟨ty, -, hinfo⟩ := h.outline.new p hp
  have hincoming : d.builder.incoming p.phi = d.given log p.phi :=
    Builder.incoming_of_inst (by rw [hinfo])
  rw [hincoming, d.map_fst_given, h.filter_log_new hjobs hp]
  split
  · rw [d₀.map_pred_tasksOf]
  · rfl

end Stage

/-! ## The bookkeeping -/

/-- Where the phis are that stand for variables. The `jobs` have no operands yet because the block
`closing?` is just being sealed. -/
structure Draft.Joined (d : Draft) (jobs : List OpenPhi) (closing? : Option Block) : Prop where
  owned : ∀ {v x}, d.known.owner? v = some x →
    v.index < d.builder.valueCount ∧ (d.builder.valueInfo v).block.index < d.builder.blockCount ∧
      d.known.type? x = some (d.builder.ty v) ∧
      (d.known.value? x (d.builder.valueInfo v).block).isSome ∧
      ∃ incoming, (d.builder.valueInfo v).inst = .phi incoming
  listed : ∀ b v, (d.builder.info b).phis.count v =
    if (d.known.owner? v).isSome ∧ (d.builder.valueInfo v).block = b then 1 else 0
  single : ∀ {v w x}, d.known.owner? v = some x → d.known.owner? w = some x →
    (d.builder.valueInfo v).block = (d.builder.valueInfo w).block → v = w
  waits : ∀ {v x}, d.known.owner? v = some x →
    d.known.isSealed (d.builder.valueInfo v).block = false →
    closing? ≠ some (d.builder.valueInfo v).block →
      ⟨x, (d.builder.valueInfo v).block, v⟩ ∈ d.known.incomplete
  filled : ∀ {v x}, d.known.owner? v = some x →
    d.known.isSealed (d.builder.valueInfo v).block = true ∨
      closing? = some (d.builder.valueInfo v).block →
    ⟨x, (d.builder.valueInfo v).block, v⟩ ∈ jobs ∨
      (d.builder.incoming v).map Prod.fst = d.builder.preds (d.builder.valueInfo v).block
  empty : ∀ p ∈ d.known.incomplete ++ jobs, d.known.owner? p.phi = some p.var ∧
    (d.builder.valueInfo p.phi).block = p.block ∧ (d.builder.valueInfo p.phi).inst = .phi []
  unsealed : ∀ p ∈ d.known.incomplete, d.known.isSealed p.block = false ∧ closing? ≠ some p.block
  closing : ∀ p ∈ jobs, closing? = some p.block
  nodup : ((d.known.incomplete ++ jobs).map OpenPhi.phi).Nodup
  preds : ∀ {c q}, q ∈ d.builder.preds c → q.index < d.builder.blockCount
  current : d.builder.current.index < d.builder.blockCount

namespace Draft.Joined

variable {P : SymbolId → Block → Prop} {d₀ d : Draft} {jobs made : List OpenPhi} {log : List Task}
  {closing? : Option Block} {v : Value} {x : SymbolId} {b : Block}

theorem lt_of_mem (h : d.Joined jobs closing?) {p : OpenPhi} (hp : p ∈ d.known.incomplete ++ jobs) :
    p.phi.index < d.builder.valueCount := (h.owned (h.empty p hp).1).1

theorem nodup_jobs (h : d.Joined jobs closing?) : (jobs.map OpenPhi.phi).Nodup := by
  have hall := h.nodup
  rw [List.map_append] at hall
  exact hall.of_append_right

/-- A phi that waits is not up for operands. -/
theorem not_mem_jobs (h : d.Joined jobs closing?) {p : OpenPhi} (hp : p ∈ d.known.incomplete) :
    p.phi ∉ jobs.map OpenPhi.phi := by
  have hall := h.nodup
  rw [List.map_append, List.nodup_append] at hall
  exact fun hmem => hall.2.2 _ (List.mem_map_of_mem hp) _ hmem rfl

/-! ### What a search that has ended leaves behind -/

section Searched

variable (h : d₀.Joined jobs closing?) (hs : Stage P d₀ jobs made log [] d)
include hs

/-- Values that existed keep their blocks and types. -/
theorem frame_of_stage (hv : v.index < d₀.builder.valueCount) :
    (d.builder.valueInfo v).block = (d₀.builder.valueInfo v).block ∧
      d.builder.ty v = d₀.builder.ty v := by
  have hinfo := hs.outline.old v hv
  unfold Builder.ty
  rw [show d.builder.function.value v = _ from hinfo, hinfo]
  unfold addOperands
  split <;> exact ⟨rfl, rfl⟩

theorem block_of_made (hp : ⟨x, b, v⟩ ∈ made) : (d.builder.valueInfo v).block = b := by
  obtain ⟨ty, -, hinfo⟩ := hs.outline.new _ hp
  rw [show d.builder.valueInfo v = _ from hinfo]

include h

theorem owned_of_stage (hmade : ∀ p ∈ made, p.block.index < d₀.builder.blockCount)
    (hv : d.known.owner? v = some x) :
    v.index < d.builder.valueCount ∧ (d.builder.valueInfo v).block.index < d.builder.blockCount ∧
      d.known.type? x = some (d.builder.ty v) ∧
      (d.known.value? x (d.builder.valueInfo v).block).isSome ∧
      ∃ incoming, (d.builder.valueInfo v).inst = .phi incoming := by
  rw [hs.outline.blockCount, hs.type?]
  rcases hs.mem_of_owner? hv with hv | ⟨c, hp⟩
  · obtain ⟨hlt, hblock, htype, hvalue, incoming, hinst⟩ := h.owned hv
    obtain ⟨hsame, hty⟩ := frame_of_stage hs hlt
    obtain ⟨r, hr⟩ := Option.isSome_iff_exists.1 hvalue
    rw [hsame, hty, hs.bindings.kept hr, hs.outline.old v hlt, addOperands_of_phi hinst,
      hs.outline.valueCount]
    exact ⟨by omega, hblock, htype, rfl, _, rfl⟩
  · obtain ⟨ty, htype, hinfo⟩ := hs.outline.new _ hp
    have hty : d.builder.ty v = ty := by
      show (d.builder.valueInfo v).ty = ty
      rw [show d.builder.valueInfo v = _ from hinfo]
    rw [block_of_made hs hp, hty, hs.bindings.phis _ hp, show d.builder.valueInfo v = _ from hinfo]
    exact ⟨(hs.lt_of_mem hp).2, hmade _ hp, htype, rfl, _, rfl⟩

/-- The phis of a block that are new are listed behind the others, each once. -/
theorem listed_of_stage (hmade : ∀ p ∈ made, p.block.index < d₀.builder.blockCount) (b : Block)
    (v : Value) : (d.builder.info b).phis.count v =
      if (d.known.owner? v).isSome ∧ (d.builder.valueInfo v).block = b then 1 else 0 := by
  by_cases hb : b.index < d₀.builder.blockCount
  · have hnew : ((made.filter (·.block = b)).map OpenPhi.phi).count v =
        if v ∈ (made.filter (·.block = b)).map OpenPhi.phi then 1 else 0 :=
      (hs.nodup_phis.sublist (List.filter_sublist.map _)).count
    rw [hs.outline.info b hb]
    simp only [List.count_append, hnew, h.listed b v]
    by_cases hv : v ∈ made.map OpenPhi.phi
    · obtain ⟨⟨x, c, w⟩, hp, rfl⟩ := List.mem_map.1 hv
      have hold : d₀.known.owner? w = none := by
        cases howner : d₀.known.owner? w with
        | none => rfl
        | some y => exact absurd (h.owned howner).1 (Nat.not_lt.2 (hs.lt_of_mem hp).1)
      have hmem : w ∈ (made.filter (·.block = b)).map OpenPhi.phi ↔ c = b := by
        constructor
        · intro hw
          obtain ⟨o, ho, heq⟩ := List.mem_map.1 hw
          obtain ⟨ho, hblock⟩ := List.mem_filter.1 ho
          have hsame := List.inj_on_of_nodup_map hs.nodup_phis ho hp heq
          rw [hsame] at hblock
          exact of_decide_eq_true hblock
        · rintro rfl
          exact List.mem_map.2 ⟨_, List.mem_filter.2 ⟨hp, by simp⟩, rfl⟩
      have howner : d.known.owner? w = some x := hs.owner?_of_mem hp
      simp [hold, hmem, block_of_made hs hp, howner]
    · have hmem : v ∉ (made.filter (·.block = b)).map OpenPhi.phi :=
        fun hw => hv ((List.filter_sublist.map _).subset hw)
      have hsame : d.known.owner? v = d₀.known.owner? v := by
        rw [hs.outline.owner, find?_phi_of_not_mem hv]
        rfl
      rw [if_neg hmem, hsame, Nat.add_zero]
      cases howner : d₀.known.owner? v with
      | none => simp
      | some y => rw [(frame_of_stage hs (h.owned howner).1).1]
  · have hnone : d.builder.info b = default := by
      refine Flow.Function.block_of_le ?_
      show d.builder.blockCount ≤ b.index
      rw [hs.outline.blockCount]
      exact Nat.not_lt.1 hb
    rw [hnone, if_neg]
    · rfl
    · rintro ⟨howner, rfl⟩
      obtain ⟨x, hx⟩ := Option.isSome_iff_exists.1 howner
      have hlt := (owned_of_stage h hs hmade hx).2.1
      rw [hs.outline.blockCount] at hlt
      exact hb hlt

/-- A phi that is new stands where its variable had no value, so no older one stands there. -/
theorem single_of_stage {w : Value} (hv : d.known.owner? v = some x) (hw : d.known.owner? w = some x)
    (hblock : (d.builder.valueInfo v).block = (d.builder.valueInfo w).block) : v = w := by
  have hclash : ∀ {u u' c}, d₀.known.owner? u = some x → ⟨x, c, u'⟩ ∈ made →
      (d.builder.valueInfo u).block = (d.builder.valueInfo u').block → u = u' := by
    intro u u' c hu hp heq
    obtain ⟨hlt, -, -, hvalue, -⟩ := h.owned hu
    rw [(frame_of_stage hs hlt).1, block_of_made hs hp] at heq
    rw [heq, (hs.bindings.stops _ hp).2.unbound] at hvalue
    cases hvalue
  rcases hs.mem_of_owner? hv with hv | ⟨c, hp⟩ <;> rcases hs.mem_of_owner? hw with hw | ⟨e, hq⟩
  · rw [(frame_of_stage hs (h.owned hv).1).1, (frame_of_stage hs (h.owned hw).1).1] at hblock
    exact h.single hv hw hblock
  · exact hclash hv hq hblock
  · exact (hclash hw hp hblock.symm).symm
  · rw [block_of_made hs hp, block_of_made hs hq] at hblock
    have hsite : (⟨x, c, v⟩ : OpenPhi).site = (⟨x, e, w⟩ : OpenPhi).site := by
      rw [OpenPhi.site, OpenPhi.site, hblock]
    have hsame := List.inj_on_of_nodup_map hs.bindings.sites hp hq hsite
    cases hsame
    rfl

theorem waits_of_stage (hv : d.known.owner? v = some x)
    (hopen : d₀.known.isSealed (d.builder.valueInfo v).block = false)
    (hclosing : closing? ≠ some (d.builder.valueInfo v).block) :
    ⟨x, (d.builder.valueInfo v).block, v⟩ ∈ d.known.incomplete := by
  rw [hs.outline.incomplete]
  rcases hs.mem_of_owner? hv with hv | ⟨c, hp⟩
  · rw [(frame_of_stage hs (h.owned hv).1).1] at hopen hclosing ⊢
    exact List.mem_append_left _ (h.waits hv hopen hclosing)
  · rw [block_of_made hs hp] at hopen ⊢
    exact List.mem_append_right _ (List.mem_filter.2 ⟨hp, by simp [hopen]⟩)

/-- No operand is missing any more where edges are final. -/
theorem filled_of_stage (hmade : ∀ p ∈ made, closing? ≠ some p.block)
    (hv : d.known.owner? v = some x)
    (hshut : d₀.known.isSealed (d.builder.valueInfo v).block = true ∨
      closing? = some (d.builder.valueInfo v).block) :
    (d.builder.incoming v).map Prod.fst = d₀.builder.preds (d.builder.valueInfo v).block := by
  rcases hs.mem_of_owner? hv with hv | ⟨c, hp⟩
  · obtain ⟨hlt, -⟩ := h.owned hv
    rw [(frame_of_stage hs hlt).1] at hshut ⊢
    by_cases hjob : v ∈ jobs.map OpenPhi.phi
    · obtain ⟨p, hp, rfl⟩ := List.mem_map.1 hjob
      obtain ⟨-, hblock, hinst⟩ := h.empty p (List.mem_append_right _ hp)
      rw [hblock]
      exact hs.preds_of_job h.nodup_jobs hp hlt hinst
    · rcases h.filled hv hshut with hp | hfilled
      · exact absurd (List.mem_map_of_mem hp) hjob
      · rw [Builder.incoming_congr (hs.valueInfo_of_not_mem hlt hjob)]
        exact hfilled
  · rw [block_of_made hs hp] at hshut ⊢
    have hsealed : d₀.known.isSealed c = true := hshut.resolve_right (hmade _ hp)
    have hpreds := hs.preds_of_made (fun o ho => h.lt_of_mem (List.mem_append_right _ ho)) hp
    rwa [if_pos hsealed] at hpreds

/-- What waits has no operands. -/
theorem empty_of_stage {p : OpenPhi} (hp : p ∈ d.known.incomplete) :
    d.known.owner? p.phi = some p.var ∧ (d.builder.valueInfo p.phi).block = p.block ∧
      (d.builder.valueInfo p.phi).inst = .phi [] := by
  rw [hs.outline.incomplete] at hp
  rcases List.mem_append.1 hp with hp | hp
  · obtain ⟨howner, hblock, hinst⟩ := h.empty p (List.mem_append_left _ hp)
    have hlt := h.lt_of_mem (List.mem_append_left _ hp)
    rw [hs.valueInfo_of_not_mem hlt (h.not_mem_jobs hp), hs.owner?_of_lt hlt]
    exact ⟨howner, hblock, hinst⟩
  · obtain ⟨hp, hopen⟩ := List.mem_filter.1 hp
    have hunsealed : d₀.known.isSealed p.block = false := by simpa using hopen
    obtain ⟨ty, -, hinfo⟩ := hs.outline.new p hp
    have hgiven : d.given log p.phi = [] := by
      unfold Draft.given
      rw [hs.filter_log_new (fun o ho => h.lt_of_mem (List.mem_append_right _ ho)) hp, hunsealed]
      rfl
    rw [hinfo, hgiven]
    exact ⟨hs.owner?_of_mem hp, rfl, rfl⟩

theorem nodup_of_stage : (d.known.incomplete.map OpenPhi.phi).Nodup := by
  rw [hs.outline.incomplete, List.map_append, List.nodup_append]
  have hall := h.nodup
  rw [List.map_append] at hall
  refine ⟨hall.of_append_left, hs.nodup_phis.sublist (List.filter_sublist.map _), ?_⟩
  rintro v hv w hw rfl
  obtain ⟨p, hp, rfl⟩ := List.mem_map.1 hv
  obtain ⟨o, ho, heq⟩ := List.mem_map.1 hw
  have hlt := h.lt_of_mem (List.mem_append_left _ hp)
  have hle := (hs.lt_of_mem (List.mem_of_mem_filter ho)).1
  rw [heq] at hle
  omega

/-- A search that has ended has made phis where its variables had no value, and has given all operands
that were missing. -/
theorem searched (hmade : ∀ p ∈ made, p.block.index < d₀.builder.blockCount ∧
    closing? ≠ some p.block) : d.Joined [] closing? where
  owned := owned_of_stage h hs fun p hp => (hmade p hp).1
  listed := listed_of_stage h hs fun p hp => (hmade p hp).1
  single := single_of_stage h hs
  waits hv hopen := waits_of_stage h hs hv (by rwa [hs.isSealed] at hopen)
  filled {v x} hv hshut := by
    rw [hs.isSealed] at hshut
    rw [hs.preds]
    exact .inr (filled_of_stage h hs (fun p hp => (hmade p hp).2) hv hshut)
  empty p hp := empty_of_stage h hs (by simpa using hp)
  unsealed p hp := by
    rw [hs.outline.incomplete] at hp
    rw [hs.isSealed]
    rcases List.mem_append.1 hp with hp | hp
    · exact h.unsealed p hp
    · obtain ⟨hp, hopen⟩ := List.mem_filter.1 hp
      exact ⟨by simpa using hopen, (hmade p hp).2⟩
  closing := nofun
  nodup := by
    rw [List.append_nil]
    exact nodup_of_stage h hs
  preds {c q} hq := by
    rw [hs.preds] at hq
    rw [hs.outline.blockCount]
    exact h.preds hq
  current := by
    rw [hs.outline.current, hs.outline.blockCount]
    exact h.current

end Searched

/-- The phis of a block that is to be sealed no longer wait. -/
theorem release (h : d.Joined [] none) (hopen : d.known.isSealed b = false) :
    (Drafting.release d b).Joined (d.known.incompleteOf b).reverse (some b) := by
  have hmem : ∀ p, p ∈ (Drafting.release d b).known.incomplete ++ (d.known.incompleteOf b).reverse ↔
      p ∈ d.known.incomplete := by
    intro p
    simp only [Drafting.release, Variables.incompleteOf, List.mem_append, List.mem_filter,
      List.mem_reverse, decide_eq_true_eq]
    tauto
  have hold : ∀ p ∈ d.known.incomplete, p ∈ d.known.incomplete ++ ([] : List OpenPhi) := by simp
  have hnone : ∀ c : Block, none ≠ some c := fun c => (Option.some_ne_none c).symm
  constructor
  case owned => exact h.owned
  case listed => exact h.listed
  case single => exact h.single
  case waits =>
    intro v x hv hs hclosing
    have hb : (d.builder.valueInfo v).block ≠ b := fun he => hclosing (by rw [← he]; rfl)
    exact List.mem_filter.2 ⟨h.waits hv hs (hnone _), decide_eq_true hb⟩
  case filled =>
    intro v x hv hshut
    rcases hshut with hs | hclosing
    · exact (h.filled hv (.inl hs)).imp (fun hp => by cases hp) id
    -- What has waited for the block is up for operands now.
    · have hb : b = (d.builder.valueInfo v).block := Option.some.inj hclosing
      rw [hb] at hopen
      refine .inl (List.mem_reverse.2 (List.mem_filter.2 ⟨h.waits hv hopen (hnone _), ?_⟩))
      exact decide_eq_true hb.symm
  case empty => exact fun p hp => h.empty p (hold p ((hmem p).1 hp))
  case unsealed =>
    intro p hp
    obtain ⟨hp, hne⟩ := List.mem_filter.1 hp
    exact ⟨(h.unsealed p hp).1, fun he => of_decide_eq_true hne (Option.some.inj he).symm⟩
  case closing =>
    intro p hp
    rw [of_decide_eq_true (List.mem_filter.1 (List.mem_reverse.1 hp)).2]
  case nodup =>
    have hperm : ((Drafting.release d b).known.incomplete ++
        (d.known.incompleteOf b).reverse).Perm d.known.incomplete := by
      refine (List.perm_append_comm.trans ((List.reverse_perm _).append_right _)).trans ?_
      refine List.Perm.trans ?_ (List.filter_append_perm (fun p : OpenPhi => p.block = b) _)
      simp [Drafting.release, Variables.incompleteOf]
    have hnodup := h.nodup
    rw [List.append_nil] at hnodup
    exact ((hperm.map OpenPhi.phi).nodup_iff).2 hnodup
  case preds => exact h.preds
  case current => exact h.current

/-- A block is sealed once its phis have their operands. -/
theorem close (h : d.Joined [] (some b)) : (Drafting.close d b).Joined [] none := by
  have hshut : ∀ {c}, (Drafting.close d b).known.isSealed c = true ↔
      d.known.isSealed c = true ∨ some b = some c := by
    intro c
    rw [Drafting.isSealed_close, Bool.or_eq_true_iff, decide_eq_true_eq, Option.some.injEq, or_comm,
      eq_comm (a := c)]
  have hopen : ∀ {c}, (Drafting.close d b).known.isSealed c = false ↔
      d.known.isSealed c = false ∧ some b ≠ some c := by
    intro c
    rw [← Bool.not_eq_true, hshut, not_or, Bool.not_eq_true]
  constructor
  case owned => exact h.owned
  case listed => exact h.listed
  case single => exact h.single
  case waits => exact fun hv hs _ => h.waits hv (hopen.1 hs).1 (hopen.1 hs).2
  case filled => exact fun hv hs => h.filled hv (hshut.1 (hs.resolve_right nofun))
  case empty => exact h.empty
  case unsealed => exact fun p hp => ⟨hopen.2 (h.unsealed p hp), nofun⟩
  case closing => exact nofun
  case nodup => exact h.nodup
  case preds => exact h.preds
  case current => exact h.current

end Draft.Joined

/-! ## Reads and sealings -/

namespace Drafting

variable {d : Draft} {S : SymbolId → Block → Prop} {jobs : List OpenPhi} {closing? : Option Block}
  {x : SymbolId} {b : Block}

theorem search_of_joined (h : d.Joined jobs closing?) (hacyclic : d.Acyclic)
    (hserved : ∀ p ∈ jobs, ∀ q ∈ d.builder.preds p.block, S p.var q) :
    Search (d.Reaches S) d jobs where
  closed := by
    rintro y c q ⟨start, hstart, hvisits⟩ hnone hsealed hq
    exact ⟨start, hstart, hvisits.back hnone hsealed hq⟩
  served p hp q hq := ⟨q, hserved p hp q hq, .start q⟩
  numbered p hp := h.lt_of_mem (List.mem_append_right _ hp)
  preds := h.preds
  acyclic := hacyclic

/-- A search comes to blocks that exist. -/
theorem lt_of_visits (h : d.Joined jobs closing?) {c : Block} (hvisits : d.Visits x b c)
    (hb : b.index < d.builder.blockCount) : c.index < d.builder.blockCount := by
  cases hvisits with
  | start => exact hb
  | back _ _ _ hq => exact h.preds hq

/-- A read ends well, or it fails because its variable has no type, and has done nothing then. -/
theorem read_cases (h : d.Joined [] none) (hacyclic : d.Acyclic) (x : SymbolId) (b : Block) :
    (∃ v d' made log, (read x b).on d = (.ok v, d') ∧
      Stage (d.Reaches fun y c => y = x ∧ c = b) d [] made log [] d') ∨
    d.known.type? x = none ∧ ∃ e, (read x b).on d = (.error e, d) := by
  have hgoes := goes_read (search_of_joined (S := fun y c => y = x ∧ c = b) h hacyclic (by simp))
    ⟨b, ⟨rfl, rfl⟩, .start b⟩
  unfold Goes at hgoes
  rcases hread : (read x b).on d with ⟨e | v, d'⟩ <;> rw [hread] at hgoes
  · right
    obtain ⟨y, c, ⟨start, ⟨rfl, rfl⟩, -⟩, -, htype⟩ := hgoes
    have huntyped := on_read_untyped (b := start) htype
    rw [hread] at huntyped
    refine ⟨htype, ?_⟩
    split at huntyped <;> cases huntyped <;> exact ⟨_, rfl⟩
  · obtain ⟨⟨made, log, hstage⟩, -⟩ := hgoes
    exact .inl ⟨v, d', made, log, rfl, hstage⟩

/-- Sealing a block that is not sealed ends well: the phis that wait stand for variables with types. -/
theorem sealBlock_cases (h : d.Joined [] none) (hacyclic : d.Acyclic)
    (hopen : d.known.isSealed b = false) :
    ∃ d₁ made log, (sealBlock b).on d = (.ok (), close d₁ b) ∧
      Stage ((release d b).Reaches fun y c => (∃ p ∈ d.known.incompleteOf b, p.var = y) ∧
        c ∈ d.builder.preds b) (release d b) (d.known.incompleteOf b).reverse made log [] d₁ := by
  have hreleased := h.release hopen
  have hS := search_of_joined (S := fun y c => (∃ p ∈ d.known.incompleteOf b, p.var = y) ∧
      c ∈ d.builder.preds b) hreleased hacyclic ?_
  swap
  · intro p hp q hq
    have hp' := List.mem_reverse.1 hp
    rw [of_decide_eq_true (List.mem_filter.1 hp').2] at hq
    exact ⟨⟨p, hp', rfl⟩, hq⟩
  have hgoes := goes_fillAll (Stage.start _ (release d b) (d.known.incompleteOf b).reverse) hS
  unfold Goes at hgoes
  rw [on_sealBlock, hopen]
  simp only [Bool.false_eq_true, if_false]
  rcases hfill : (fillAll (d.known.incompleteOf b).reverse).on (release d b) with ⟨e | ⟨⟩, d₁⟩ <;>
    rw [hfill] at hgoes
  -- A search fails for want of a type only, and what waits stands for a variable with a type.
  · obtain ⟨y, c, ⟨start, ⟨⟨p, hp, rfl⟩, -⟩, -⟩, -, htype⟩ := hgoes
    have howner := (h.empty p (by simpa using List.mem_of_mem_filter hp)).1
    have htyped : (release d b).known.type? p.var = some (d.builder.ty p.phi) :=
      (h.owned howner).2.2.1
    rw [htype] at htyped
    cases htyped
  · obtain ⟨⟨made, log, hstage⟩, -⟩ := hgoes
    exact ⟨d₁, made, log, rfl, hstage⟩

theorem joined_read (h : d.Joined [] none) (hacyclic : d.Acyclic)
    (hb : b.index < d.builder.blockCount) : ((read x b).on d).2.Joined [] none := by
  rcases read_cases h hacyclic x b with ⟨v, d', made, log, hread, hstage⟩ | ⟨-, e, hread⟩
  · rw [hread]
    refine h.searched hstage fun p hp => ⟨?_, nofun⟩
    obtain ⟨start, ⟨-, rfl⟩, hvisits⟩ := (hstage.bindings.stops p hp).1
    exact lt_of_visits h hvisits hb
  · rw [hread]
    exact h

theorem joined_sealBlock (h : d.Joined [] none) (hacyclic : d.Acyclic) :
    ((sealBlock b).on d).2.Joined [] none := by
  cases hopen : d.known.isSealed b with
  | true =>
    rw [on_sealBlock, hopen]
    exact h
  | false =>
    obtain ⟨d₁, made, log, hseal, hstage⟩ := sealBlock_cases h hacyclic hopen
    rw [hseal]
    refine ((h.release hopen).searched hstage fun p hp => ?_).close
    obtain ⟨⟨start, ⟨⟨o, ho, hvar⟩, hstart⟩, hvisits⟩, hstop⟩ := hstage.bindings.stops p hp
    refine ⟨lt_of_visits (h.release hopen) hvisits (h.preds hstart), fun he => ?_⟩
    -- The variables of the phis that wait have values in the block already.
    obtain ⟨ho, hblock⟩ := List.mem_filter.1 ho
    obtain ⟨howner, hsame, -⟩ := h.empty o (by simpa using ho)
    have hvalue := (h.owned howner).2.2.2.1
    rw [hsame, of_decide_eq_true hblock, hvar, Option.some.inj he] at hvalue
    have hnone : d.known.value? p.var p.block = none := hstop.unbound
    rw [hnone] at hvalue
    cases hvalue

/-! ## Reading through a single predecessor -/

/-- A walk that ends does so with more steps as well. -/
theorem walk_succ {n : Nat} {gone : List Block} {stop : Draft.WalkEnd}
    (hwalk : d.walk x n b = (gone, stop)) (hstop : stop ≠ .endless) :
    d.walk x (n + 1) b = (gone, stop) := by
  induction n generalizing b gone with
  | zero =>
    rw [Draft.walk] at hwalk
    cases hwalk
    exact absurd rfl hstop
  | succ n ih =>
    rw [Draft.walk] at hwalk ⊢
    cases hvalue : d.known.value? x b with
    | some v =>
      rw [hvalue] at hwalk
      exact hwalk
    | none =>
      rw [hvalue] at hwalk
      cases hsealed : d.known.isSealed b with
      | false =>
        rw [hsealed] at hwalk
        exact hwalk
      | true =>
        rw [hsealed] at hwalk
        simp only [if_true] at hwalk ⊢
        split at hwalk
        · next q hq =>
          rcases hrest : d.walk x n q with ⟨gone', stop'⟩
          rw [hrest] at hwalk
          cases hwalk
          rw [ih hrest]
        · exact hwalk

/-- A walk from a sealed block with one predecessor goes on there, if the block has no value. -/
theorem walkFrom_pred (hacyclic : d.Acyclic) {q : Block} (hsealed : d.known.isSealed b = true)
    (hpreds : d.builder.preds b = [q]) (hnone : d.known.value? x b = none) :
    d.walkFrom x b = (b :: (d.walkFrom x q).1, (d.walkFrom x q).2) := by
  have hstart : d.walkFrom x b = (b :: (d.walk x d.builder.blockCount q).1,
      (d.walk x d.builder.blockCount q).2) := by
    unfold Draft.walkFrom
    rw [Draft.walk, hnone, hsealed]
    simp only [if_true, hpreds]
  have hends := Draft.walkFrom_ends hacyclic x b
  rw [hstart] at hends
  rw [hstart, Draft.walkFrom, walk_succ (n := d.builder.blockCount) rfl hends]

/-- What a read returns, when it returns something, and why it fails otherwise: both depend only on where
the walk ends. -/
theorem read_fst_eq (h : d.Joined [] none) (hacyclic : d.Acyclic) (x : SymbolId) (b : Block) :
    ((read x b).on d).1 = match (d.walkFrom x b).2 with
      | .bound v => .ok v
      | .unsealed stop | .merge stop =>
        if (d.known.type? x).isSome then .ok ⟨d.builder.valueCount⟩
        else .error (.ofDefect (.undeclared x stop))
      | .endless => .error (.ofDefect (.endless x b)) := by
  cases htype : d.known.type? x with
  | none =>
    rw [on_read_untyped htype]
    rcases d.walkFrom x b with ⟨gone, v | stop | stop | _⟩ <;> rfl
  | some ty =>
    rcases read_cases h hacyclic x b with ⟨v, d', made, log, hread, -⟩ | ⟨hnone, -⟩
    · rw [hread]
      obtain ⟨⟨u, made⟩, d₁, hresolve, hrest⟩ := on_bind_ok hread
      obtain ⟨⟨⟩, d₂, -, hdone⟩ := on_bind_ok hrest
      cases hdone
      rw [on_resolve] at hresolve
      rcases hwalk : d.walkFrom x b with ⟨gone, v | stop | stop | _⟩ <;>
        rw [hwalk] at hresolve <;> simp only [htype] at hresolve <;> cases hresolve <;> rfl
    · rw [htype] at hnone
      cases hnone

/-- A read in a sealed block with one predecessor, where the variable has no value, is a read in the
predecessor. It places no phi in the block. -/
theorem read_through (h : d.Joined [] none) (hacyclic : d.Acyclic) {q : Block}
    (hsealed : d.known.isSealed b = true) (hpreds : d.builder.preds b = [q])
    (hnone : d.known.value? x b = none) :
    ((read x b).on d).1 = ((read x q).on d).1 ∧
      (((read x b).on d).2.builder.info b).phis = (d.builder.info b).phis := by
  have hwalk := walkFrom_pred hacyclic hsealed hpreds hnone
  have hends := Draft.walkFrom_ends hacyclic x q
  refine ⟨?_, ?_⟩
  · rw [read_fst_eq h hacyclic, read_fst_eq h hacyclic, hwalk]
    cases hstop : (d.walkFrom x q).2 with
    | endless => exact absurd hstop hends
    | _ => rfl
  · rcases read_cases h hacyclic x b with ⟨v, d', made, log, hread, hstage⟩ | ⟨-, e, hread⟩
    · have hb : b.index < d.builder.blockCount := by
        by_contra hb
        rw [Builder.preds_of_le (Nat.not_lt.1 hb)] at hpreds
        cases hpreds
      have hmade : made.filter (·.block = b) = [] := by
        refine List.filter_eq_nil_iff.2 fun p hp heq => ?_
        rw [← of_decide_eq_true heq] at hsealed hpreds
        exact (hstage.bindings.stops p hp).2.noChain hsealed q hpreds
      rw [hread, hstage.outline.info b hb, hmade]
      simp
    · rw [hread]

end Drafting

/-! ## Steps -/

/-- What a draft shows of its joins: where the phis are that stand for variables, which operands they
have, which of them wait, and what comes of a read. -/
structure Draft.JoinsComplete (d : Draft) : Prop where
  owned : ∀ {phi b}, phi ∈ (d.builder.info b).phis → (d.known.owner? phi).isSome
  listed : ∀ {phi x}, d.known.owner? phi = some x → ∃ b, (d.builder.info b).phis.count phi = 1 ∧
    ∀ c, c ≠ b → phi ∉ (d.builder.info c).phis
  typed : ∀ {phi x}, d.known.owner? phi = some x → d.known.type? x = some (d.builder.ty phi)
  single : ∀ {phi other x b}, d.known.owner? phi = some x → d.known.owner? other = some x →
    phi ∈ (d.builder.info b).phis → other ∈ (d.builder.info b).phis → phi = other
  filled : ∀ {phi x b}, d.known.owner? phi = some x → phi ∈ (d.builder.info b).phis →
    d.known.isSealed b = true → (d.builder.incoming phi).map Prod.fst = d.builder.preds b
  waits : ∀ {phi x b}, d.known.owner? phi = some x → phi ∈ (d.builder.info b).phis →
    d.known.isSealed b = false →
      d.builder.incoming phi = [] ∧ d.known.incomplete.count ⟨x, b, phi⟩ = 1
  registered : ∀ p ∈ d.known.incomplete, d.known.owner? p.phi = some p.var ∧
    p.phi ∈ (d.builder.info p.block).phis ∧ d.known.isSealed p.block = false
  through : ∀ {x b q}, d.known.isSealed b = true → d.builder.preds b = [q] →
    d.known.value? x b = none → ((Drafting.read x b).on d).1 = ((Drafting.read x q).on d).1 ∧
      (((Drafting.read x b).on d).2.builder.info b).phis = (d.builder.info b).phis
  answers : ∀ x b, (d.known.type? x).isSome → ∃ v d', (Drafting.read x b).on d = (.ok v, d')

namespace Draft.Joined

variable {d : Draft} {phi : Value} {x : SymbolId} {b : Block}

/-- A phi stands in the block that lists it. -/
theorem block_of_mem (h : d.Joined [] none) (hphi : phi ∈ (d.builder.info b).phis) :
    (d.builder.valueInfo phi).block = b := by
  have hcount := h.listed b phi
  by_contra hne
  rw [if_neg (fun hb => hne hb.2), List.count_eq_zero] at hcount
  exact hcount hphi

theorem mem_phis (h : d.Joined [] none) (howner : d.known.owner? phi = some x) :
    (d.builder.info (d.builder.valueInfo phi).block).phis.count phi = 1 := by
  rw [h.listed, howner]
  simp

theorem joinsComplete (h : d.Joined [] none) (hacyclic : d.Acyclic) : d.JoinsComplete where
  owned {phi b} hmem := by
    have hcount := h.listed b phi
    by_contra hnone
    rw [if_neg (fun hb => hnone hb.1), List.count_eq_zero] at hcount
    exact hcount hmem
  listed {phi x} howner := by
    refine ⟨(d.builder.valueInfo phi).block, h.mem_phis howner, fun c hc hmem => ?_⟩
    exact hc (h.block_of_mem hmem).symm
  typed howner := (h.owned howner).2.2.1
  single howner hother hmem hmem' :=
    h.single howner hother ((h.block_of_mem hmem).trans (h.block_of_mem hmem').symm)
  filled howner hmem hsealed := by
    rw [← h.block_of_mem hmem] at hsealed ⊢
    exact (h.filled howner (.inl hsealed)).resolve_left nofun
  waits howner hmem hopen := by
    rw [← h.block_of_mem hmem] at hopen ⊢
    have hwaits := h.waits howner hopen nofun
    refine ⟨Builder.incoming_of_inst (h.empty _ (by simpa using hwaits)).2.2, ?_⟩
    have hnodup := h.nodup
    rw [List.append_nil] at hnodup
    exact List.count_eq_one_of_mem hnodup.of_map hwaits
  registered p hp := by
    obtain ⟨howner, hblock, -⟩ := h.empty p (by simpa using hp)
    refine ⟨howner, ?_, (h.unsealed p hp).1⟩
    have hcount := h.mem_phis howner
    rw [hblock] at hcount
    exact List.count_pos_iff.1 (by omega)
  through := Drafting.read_through h hacyclic
  answers x b htype := by
    rcases Drafting.read_cases h hacyclic x b with ⟨v, d', -, -, hread, -⟩ | ⟨hnone, -⟩
    · exact ⟨v, d', hread⟩
    · rw [hnone] at htype
      cases htype

/-- A builder that leaves values, phis, and edges into sealed blocks alone. -/
theorem of_builder (h : d.Joined [] none) {builder : Builder}
    (hblocks : d.builder.blockCount ≤ builder.blockCount)
    (hvalues : d.builder.valueCount ≤ builder.valueCount)
    (hinfo : ∀ v, v.index < d.builder.valueCount → builder.valueInfo v = d.builder.valueInfo v)
    (hphis : ∀ c, (builder.info c).phis = (d.builder.info c).phis)
    (hsealed : ∀ c, d.known.isSealed c = true → builder.preds c = d.builder.preds c)
    (hpreds : ∀ c q, q ∈ builder.preds c → q.index < builder.blockCount)
    (hcurrent : builder.current.index < builder.blockCount) :
    Joined { d with builder := builder } [] none where
  owned {v x} hv := by
    obtain ⟨hlt, hblock, htype, hvalue, hinst⟩ := h.owned hv
    have hv' := hinfo v hlt
    refine ⟨Nat.lt_of_lt_of_le hlt hvalues, ?_, ?_, ?_, ?_⟩
    · rw [hv']
      exact Nat.lt_of_lt_of_le hblock hblocks
    · show _ = some (builder.valueInfo v).ty
      rw [hv']
      exact htype
    · rw [hv']
      exact hvalue
    · rw [hv']
      exact hinst
  listed b v := by
    rw [hphis b, h.listed b v]
    show _ = if (d.known.owner? v).isSome ∧ _ then 1 else 0
    cases howner : d.known.owner? v with
    | none => simp
    | some x => rw [hinfo v (h.owned howner).1]
  single {v w x} hv hw hblock := by
    rw [hinfo v (h.owned hv).1, hinfo w (h.owned hw).1] at hblock
    exact h.single hv hw hblock
  waits {v x} hv := by
    rw [hinfo v (h.owned hv).1]
    exact h.waits hv
  filled {v x} hv hshut := by
    rw [hinfo v (h.owned hv).1] at hshut ⊢
    have hs := hshut.resolve_right nofun
    rw [hsealed _ hs, Builder.incoming_congr (hinfo v (h.owned hv).1)]
    exact h.filled hv hshut
  empty p hp := by
    rw [hinfo p.phi (h.lt_of_mem hp)]
    exact h.empty p hp
  unsealed := h.unsealed
  closing := h.closing
  nodup := h.nodup
  preds hq := hpreds _ _ hq
  current := hcurrent

/-- The end of a block that leads to blocks which are not sealed. -/
theorem terminate (h : d.Joined [] none) {t : Terminator}
    (ht : ∀ c ∈ t.successors, d.known.isSealed c = false) :
    Joined { d with builder := d.builder.terminate t } [] none := by
  refine h.of_builder (by simp) (by simp) (fun v _ => Builder.valueInfo_terminate _ t v)
    (Builder.phis_terminate _ t) ?_ ?_ (by simpa using h.current)
  · intro c hc
    refine Builder.preds_terminate_of_notMem fun hmem => ?_
    rw [ht c hmem] at hc
    cases hc
  · intro c q hq
    rw [Builder.blockCount_terminate]
    rcases Builder.mem_preds_terminate hq with hq | rfl
    · exact h.preds hq
    · exact h.current

end Draft.Joined

namespace Recording

variable {R : Recording}

/-- What is asked of callers: they name blocks that exist, lead to no sealed block, and leave phis to
searches. They may write anywhere at any time, read variables without types, and end or seal a block
twice. -/
def Fair (R : Recording) : Op → Prop
  | .newBlock _ | .push .. | .declare .. | .write .. | .sealBlock _ => True
  | .setCurrent b | .read _ b => b.index < R.draft.builder.blockCount
  | .terminate t => ∀ c ∈ t.successors, R.draft.known.isSealed c = false
  | .invoke _ _ _ normal unwind => ∀ c ∈ [normal, unwind], R.draft.known.isSealed c = false
  | .phi .. | .addIncoming .. => False

theorem Fair.sparesSealed {op : Op} (hop : R.Fair op) : R.SparesSealed op := by
  cases op with
  | terminate t => exact hop
  | invoke callee arguments result normal unwind => exact hop
  | _ => trivial

theorem joined_step (h : R.draft.Joined [] none) (hacyclic : R.draft.Acyclic) {op : Op}
    (hop : R.Fair op) : (R.step op).draft.Joined [] none := by
  cases op with
  | newBlock label =>
    have hframe := R.draft.builder.frame_newBlock label
    refine h.of_builder (by simp) (by simp) (fun _ _ => rfl) (fun c => (hframe c).2)
      (fun c _ => (hframe c).1) ?_ ?_
    · intro c q hq
      rw [(hframe c).1] at hq
      have hlt := h.preds hq
      simp only [Builder.blockCount_newBlock]
      omega
    · have hlt := h.current
      simp only [Builder.blockCount_newBlock, Builder.current_newBlock]
      omega
  | setCurrent c =>
    exact h.of_builder (Nat.le_refl _) (Nat.le_refl _) (fun _ _ => rfl) (fun _ => rfl)
      (fun _ _ => rfl) (fun _ _ hq => h.preds hq) hop
  | push inst ty =>
    have hframe := R.draft.builder.frame_push inst ty
    refine h.of_builder (by simp) (by simp) (fun v hv => ?_) (fun c => (hframe c).2)
      (fun c _ => (hframe c).1) ?_ ?_
    · rw [Builder.valueInfo_push, if_neg (Nat.ne_of_lt hv)]
    · intro c q hq
      rw [(hframe c).1] at hq
      rw [Builder.blockCount_push]
      exact h.preds hq
    · rw [Builder.blockCount_push]
      exact h.current
  | terminate t => exact h.terminate hop
  | invoke callee arguments result normal unwind =>
    let called := (R.draft.builder.newValue (.call callee arguments) result R.draft.builder.current).2
    have hcalled : Draft.Joined { R.draft with builder := called } [] none := by
      refine h.of_builder (Nat.le_refl _) ?_ (fun v hv => ?_) (fun _ => rfl) (fun _ _ => rfl)
        (fun _ _ hq => h.preds hq) h.current
      · simp [called, Builder.newValue, Builder.valueCount]
      · rw [Builder.valueInfo_newValue, if_neg (Nat.ne_of_lt hv)]
    exact hcalled.terminate (t := .invoke ⟨R.draft.builder.valueCount⟩ normal unwind) hop
  | phi c ty => exact hop.elim
  | addIncoming phi pred v => exact hop.elim
  | declare x ty =>
    refine { h with owned := fun {v y} hv => ?_ }
    obtain ⟨hlt, hblock, htype, hvalue, hinst⟩ := h.owned hv
    refine ⟨hlt, hblock, ?_, hvalue, hinst⟩
    exact R.draft.known.type?_declare_of_some x ty htype
  | write x c u =>
    refine { h with owned := fun {v y} hv => ?_ }
    obtain ⟨hlt, hblock, htype, hvalue, hinst⟩ := h.owned hv
    refine ⟨hlt, hblock, htype, ?_, hinst⟩
    show ((R.draft.known.write x c u).value? y _).isSome
    rw [Variables.value?_write_eq]
    split
    · rfl
    · exact hvalue
  | read x c =>
    rw [draft_read]
    exact Drafting.joined_read h hacyclic hop
  | sealBlock c =>
    rw [draft_sealBlock]
    exact Drafting.joined_sealBlock h hacyclic

theorem joined_run (hR : R.draft.Joined [] none) {ops : List Op} (hops : Keeps Fair R ops)
    (hacyclic : (R.run ops).draft.Acyclic) : (R.run ops).draft.Joined [] none := by
  induction ops generalizing R with
  | nil => exact hR
  | cons op rest ih =>
    exact ih (joined_step hR (acyclic_of_run Fair.sparesSealed hops hacyclic) hops.1) hops.2 hacyclic

theorem joined_start (name : String) (params : List Ty) (result : Ty) :
    (start name params result).draft.Joined [] none where
  owned hv := by cases hv
  listed b v := by
    rw [(frame_start name params result b).2]
    rfl
  single hv := by cases hv
  waits hv := by cases hv
  filled hv := by cases hv
  empty := nofun
  unsealed := nofun
  closing := nofun
  nodup := List.nodup_nil
  preds {c q} hq := by
    rw [(frame_start name params result c).1] at hq
    cases hq
  current := by simp [start, Builder.start, Builder.blockCount, Flow.Function.entry]

/-- Whatever callers do that keep to the rules, between any two steps the joins are complete, unless there
is a cycle of sealed blocks with one predecessor each. -/
theorem joins_complete {name : String} {params : List Ty} {result : Ty} {ops : List Op}
    (hops : Keeps Fair (start name params result) ops)
    (hacyclic : ((start name params result).run ops).draft.Acyclic) :
    ((start name params result).run ops).draft.JoinsComplete :=
  (joined_run (joined_start name params result) hops hacyclic).joinsComplete hacyclic

/-- The joins of the loop are complete, though the variable is written in the loop after its block has been
sealed. -/
theorem joins_complete_late :
    Keeps Fair (start "loop" [] .int) (loopFront ++ .read ⟨0⟩ ⟨1⟩ :: lateBack) ∧
      (loopWith lateBack).draft.Acyclic ∧ (loopWith lateBack).draft.JoinsComplete := by
  have hops : Keeps Fair (start "loop" [] .int) (loopFront ++ .read ⟨0⟩ ⟨1⟩ :: lateBack) := by
    refine ⟨trivial, trivial, trivial, trivial, trivial, trivial, trivial, ?_, ?_, ?_, ?_, trivial,
      trivial, ?_, trivial, ?_, trivial⟩ <;> rw [Fair] <;> decide +kernel
  exact ⟨hops, complete_lateBack.acyclic, joins_complete hops complete_lateBack.acyclic⟩

end Recording

end Abacus.Lowering
