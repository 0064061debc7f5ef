import Abacus.Proofs.Flow.Building

/-!
# Where a builder puts its values

A value is recorded with the block in which it stands. A function that comes of the steps of a builder
holds every value there: among the phis, among the instructions, or as the call of the `invoke` that
ends the block.

* `Builder.Built` — the builders to which the steps lead, each block being ended at most once;
* `Function.Placed` — every value stands where it is recorded, and nothing else is named;
* `Builder.Built.placed` — the functions under construction are placed.
-/

namespace Abacus.Flow

/-- The values that an end reads itself. The operands of the call of an `invoke` are not among them. -/
def Terminator.reads : Terminator → List Value
  | branch condition _ _ => [condition]
  | ret v | raise v | resume v => [v]
  | jump _ | invoke .. | unreachable => []

/-- Is this the end that `Builder.invoke` gives to a block? -/
def Terminator.isInvoke : Terminator → Bool
  | invoke .. => true
  | _ => false

/-- The builders to which the steps lead. A step names only blocks and values that are there, and
ends a block that has no end yet. -/
inductive Builder.Built : Builder → Prop
  | start (name : String) (params : List Ty) (result : Ty) : Built (start name params result)
  | newBlock {b : Builder} (label : String) : Built b → Built (b.newBlock label).2
  | setCurrent {b : Builder} {block : Block} : Built b → block.index < b.blockCount →
      Built (b.setCurrent block)
  | push {b : Builder} {inst : Inst} (ty : Ty) : Built b →
      (∀ v ∈ inst.operands, v.index < b.valueCount) → Built (b.push inst ty).2
  | phi {b : Builder} {block : Block} (ty : Ty) : Built b → block.index < b.blockCount →
      Built (b.phi block ty).2
  | addIncoming {b : Builder} {v : Value} (phi : Value) (pred : Block) : Built b →
      v.index < b.valueCount → Built (b.addIncoming phi pred v)
  | terminate {b : Builder} {t : Terminator} : Built b → b.isTerminated b.current = false →
      t.isInvoke = false → (∀ v ∈ t.reads, v.index < b.valueCount) → Built (b.terminate t)
  | invoke {b : Builder} {arguments : List Value} (callee : String) (result : Ty)
      (normal unwind : Block) : Built b → b.isTerminated b.current = false →
      (∀ v ∈ arguments, v.index < b.valueCount) →
      Built (b.invoke callee arguments result normal unwind).2

/-- What a block holds: `v` is one of its phis or instructions, or the call of its `invoke`. -/
def BlockInfo.Holds (info : BlockInfo) (v : Value) : Prop :=
  v ∈ info.phis ∨ v ∈ info.insts ∨ ∃ normal unwind, info.terminator? = some (.invoke v normal unwind)

/-- Every value stands in the block that it records, and only values are named. -/
structure Function.Placed (f : Function) : Prop where
  stands : ∀ {v : Value}, v.index < f.values.size → (f.block (f.value v).block).Holds v
  lists : ∀ {b : Block} {v : Value}, (f.block b).Holds v → v.index < f.values.size
  operands : ∀ {v u : Value}, u ∈ (f.inst v).operands → u.index < f.values.size
  ends : ∀ {b : Block} {t : Terminator} {v : Value}, (f.block b).terminator? = some t → v ∈ t.reads →
    v.index < f.values.size

namespace Builder

/-- A step keeps a function placed if it only adds: what blocks hold, where values are recorded, and
what is named stay as they were or are in order. -/
theorem placed_of_step {b c : Builder} (h : b.function.Placed)
    (count : b.valueCount ≤ c.valueCount)
    (held : ∀ block v, (b.info block).Holds v → (c.info block).Holds v)
    (recorded : ∀ v, v.index < b.valueCount → (c.valueInfo v).block = (b.valueInfo v).block)
    (added : ∀ v, b.valueCount ≤ v.index → v.index < c.valueCount →
      (c.info (c.valueInfo v).block).Holds v)
    (lists : ∀ block v, (c.info block).Holds v → (b.info block).Holds v ∨ v.index < c.valueCount)
    (operands : ∀ v, ∀ u ∈ (c.valueInfo v).inst.operands,
      u ∈ (b.valueInfo v).inst.operands ∨ u.index < c.valueCount)
    (ends : ∀ block t, (c.info block).terminator? = some t → ∀ v ∈ t.reads,
      (b.info block).terminator? = some t ∨ v.index < c.valueCount) : c.function.Placed where
  stands {v} hv := by
    by_cases hlt : v.index < b.valueCount
    · have hstands := held _ v (h.stands hlt)
      rwa [← recorded v hlt] at hstands
    · exact added v (Nat.not_lt.1 hlt) hv
  lists {block v} hv := (lists block v hv).elim (fun hv => Nat.lt_of_lt_of_le (h.lists hv) count) id
  operands {v u} hu := (operands v u hu).elim (fun hu => Nat.lt_of_lt_of_le (h.operands hu) count) id
  ends {block t v} ht hv :=
    (ends block t ht v hv).elim (fun ht => Nat.lt_of_lt_of_le (h.ends ht hv) count) id

theorem not_holds_fresh {label : String} {v : Value} : ¬ (BlockInfo.fresh label).Holds v := by
  simp [BlockInfo.Holds, BlockInfo.fresh]

theorem start_placed (name : String) (params : List Ty) (result : Ty) :
    (start name params result).function.Placed := by
  have hvalue : ∀ v : Value, v.index < params.length → (start name params result).valueInfo v =
      ⟨params.getD v.index default, .param v.index, Function.entry⟩ := by
    intro v hv
    simp [start, paramValues, valueInfo, Function.value, hv]
  have hcount : (start name params result).function.values.size = params.length := by
    simp [start, paramValues]
  have hblock : ∀ c : Block, (start name params result).info c =
      if c = Function.entry then entryInfo params else default := by
    rintro ⟨_ | c⟩ <;> simp [start, info, Function.block, Function.entry]
  have hholds : ∀ {c : Block} {v : Value}, ((start name params result).info c).Holds v ↔
      c = Function.entry ∧ v.index < params.length := by
    intro c v
    rw [hblock]
    by_cases hc : c = Function.entry
    · have hv : (∃ i, i < params.length ∧ Value.mk i = v) ↔ v.index < params.length := by
        refine ⟨?_, fun hv => ⟨v.index, hv, rfl⟩⟩
        rintro ⟨i, hi, rfl⟩
        exact hi
      simp [hc, BlockInfo.Holds, entryInfo, BlockInfo.fresh, hv]
    · simp [hc, BlockInfo.Holds]
  constructor
  case stands =>
    intro v hv
    rw [hcount] at hv
    show ((start name params result).info ((start name params result).valueInfo v).block).Holds v
    rw [hvalue v hv]
    exact hholds.2 ⟨rfl, hv⟩
  case lists =>
    intro block v hv
    rw [hcount]
    exact (hholds.1 hv).2
  case operands =>
    intro v u hu
    by_cases hv : v.index < params.length
    · change u ∈ ((start name params result).valueInfo v).inst.operands at hu
      rw [hvalue v hv] at hu
      simp [Inst.operands] at hu
    · rw [Function.inst, Function.value_of_le (by omega)] at hu
      exact absurd hu (by decide +revert)
  case ends =>
    intro block t v ht _
    change ((start name params result).info block).terminator? = some t at ht
    rw [hblock] at ht
    split at ht <;> simp [entryInfo, BlockInfo.fresh] at ht

theorem push_placed {b : Builder} (h : b.function.Placed) (hcurrent : b.current.index < b.blockCount)
    {inst : Inst} (ty : Ty) (hinst : ∀ v ∈ inst.operands, v.index < b.valueCount) :
    (b.push inst ty).2.function.Placed := by
  have hvalue := valueInfo_push b inst ty
  refine placed_of_step h (by simp) (fun block v hv => ?_) (fun v hv => ?_) (fun v hle hlt => ?_)
    (fun block v hv => ?_) (fun v u hu => ?_) (fun block t ht v _ => .inl ?_)
  · rw [info_push]
    split
    · exact hv.imp_right fun hv => hv.imp_left fun hv => Array.mem_push_of_mem _ hv
    · exact hv
  · rw [hvalue, if_neg (Nat.ne_of_lt hv)]
  · rw [valueCount_push] at hlt
    have hv : v.index = b.valueCount := by omega
    rw [hvalue, if_pos hv, info_push, if_pos ⟨rfl, hcurrent⟩]
    refine .inr (.inl (Array.mem_push.2 (.inr ?_)))
    exact Value.ext_index hv
  · rw [info_push] at hv
    split at hv
    · rcases hv with hv | hv | hv
      · exact .inl (.inl hv)
      · rcases Array.mem_push.1 hv with hv | rfl
        · exact .inl (.inr (.inl hv))
        · exact .inr (by simp)
      · exact .inl (.inr (.inr hv))
    · exact .inl hv
  · rw [hvalue] at hu
    split at hu
    · exact .inr (by rw [valueCount_push]; exact Nat.lt_succ_of_lt (hinst u hu))
    · exact .inl hu
  · rw [info_push] at ht
    split at ht <;> exact ht

theorem phi_placed {b : Builder} (h : b.function.Placed) {block : Block}
    (hblock : block.index < b.blockCount) (ty : Ty) : (b.phi block ty).2.function.Placed := by
  have hvalue := valueInfo_phi b block ty
  refine placed_of_step h (by simp) (fun c v hv => ?_) (fun v hv => ?_) (fun v hle hlt => ?_)
    (fun c v hv => ?_) (fun v u hu => ?_) (fun c t ht v _ => .inl ?_)
  · rw [info_phi]
    split
    · exact hv.imp_left fun hv => List.mem_append_left _ hv
    · exact hv
  · rw [hvalue, if_neg (Nat.ne_of_lt hv)]
  · rw [valueCount_phi] at hlt
    have hv : v.index = b.valueCount := by omega
    rw [hvalue, if_pos hv, info_phi, if_pos ⟨rfl, hblock⟩]
    refine .inl (List.mem_append_right _ (List.mem_singleton.2 ?_))
    exact Value.ext_index hv
  · rw [info_phi] at hv
    split at hv
    · rcases hv with hv | hv
      · rcases List.mem_append.1 hv with hv | hv
        · exact .inl (.inl hv)
        · rw [List.mem_singleton.1 hv]
          exact .inr (by simp)
      · exact .inl (.inr hv)
    · exact .inl hv
  · rw [hvalue] at hu
    split at hu
    · simp [Inst.operands] at hu
    · exact .inl hu
  · rw [info_phi] at ht
    split at ht <;> exact ht

theorem addIncoming_placed {b : Builder} (h : b.function.Placed) (phi : Value) (pred : Block)
    {u : Value} (hu : u.index < b.valueCount) : (b.addIncoming phi pred u).function.Placed := by
  have hvalue := valueInfo_addIncoming b phi pred u
  refine placed_of_step h (by simp) (fun c v hv => hv) (fun v hv => ?_) (fun v hle hlt => ?_)
    (fun c v hv => .inl hv) (fun v w hw => ?_) (fun c t ht v _ => .inl ht)
  · rw [hvalue]
    split <;> simp
  · rw [valueCount_addIncoming] at hlt
    omega
  · rw [hvalue] at hw
    split at hw
    · unfold addOperand at hw
      split at hw
      · next incoming hinst =>
        simp only [Inst.operands, List.map_append, List.mem_append, List.map_cons, List.map_nil,
          List.mem_singleton] at hw
        rcases hw with hw | rfl
        · exact .inl (by rw [hinst]; exact hw)
        · exact .inr (by simpa using hu)
      · exact .inl hw
    · exact .inl hw

theorem newBlock_placed {b : Builder} (h : b.function.Placed) (label : String) :
    (b.newBlock label).2.function.Placed := by
  have hold : ∀ c : Block, c.index = b.blockCount → b.info c = default := fun c hc =>
    Function.block_of_le (Nat.le_of_eq hc.symm)
  refine placed_of_step h (by simp) (fun c v hv => ?_) (fun v _ => rfl) (fun v hle hlt => ?_)
    (fun c v hv => .inl ?_) (fun v u hu => .inl hu) (fun c t ht v _ => .inl ?_)
  · rw [info_newBlock]
    split
    · next hc =>
      rw [hold c hc] at hv
      simp [BlockInfo.Holds] at hv
    · exact hv
  · rw [valueCount_newBlock] at hlt
    omega
  · rw [info_newBlock] at hv
    split at hv
    · exact absurd hv not_holds_fresh
    · exact hv
  · rw [info_newBlock] at ht
    split at ht
    · simp [BlockInfo.fresh] at ht
    · exact ht

/-- The block that ends now holds what it held before, and the call if it ends in an `invoke`. -/
theorem info_terminate_holds {b : Builder} (hopen : b.isTerminated b.current = false)
    (hcurrent : b.current.index < b.blockCount) {t : Terminator} {c : Block} {v : Value} :
    ((b.terminate t).info c).Holds v ↔
      (b.info c).Holds v ∨ c = b.current ∧ ∃ normal unwind, t = .invoke v normal unwind := by
  by_cases hlt : c.index < b.blockCount
  · rw [info_terminate b t c hlt]
    by_cases hc : c = b.current
    · subst hc
      have hnone : (b.info b.current).terminator? = none := by simpa [isTerminated] using hopen
      simp [BlockInfo.Holds, hnone, or_assoc]
    · simp [BlockInfo.Holds, hc]
  · have hne : c ≠ b.current := fun h => hlt (h ▸ hcurrent)
    have hnone : b.info c = default := Function.block_of_le (Nat.not_lt.1 hlt)
    have hnone' : (b.terminate t).info c = default :=
      Function.block_of_le (by have := blockCount_terminate b t; unfold blockCount at this hlt; omega)
    rw [hnone, hnone']
    simp [hne]

/-- An end of a block is the one that has just been given, or was there. -/
theorem terminator?_terminate {b : Builder} {t t' : Terminator} {c : Block}
    (h : ((b.terminate t).info c).terminator? = some t') :
    t' = t ∨ (b.info c).terminator? = some t' := by
  by_cases hlt : c.index < b.blockCount
  · rw [info_terminate b t c hlt] at h
    dsimp only at h
    split at h
    · exact .inl (Option.some.inj h).symm
    · exact .inr h
  · have hnone : (b.terminate t).info c = default :=
      Function.block_of_le (by have := blockCount_terminate b t; unfold blockCount at this hlt; omega)
    rw [hnone] at h
    cases h

theorem terminate_placed {b : Builder} (h : b.function.Placed)
    (hcurrent : b.current.index < b.blockCount) (hopen : b.isTerminated b.current = false)
    {t : Terminator} (hinvoke : t.isInvoke = false) (ht : ∀ v ∈ t.reads, v.index < b.valueCount) :
    (b.terminate t).function.Placed := by
  refine placed_of_step h (by simp) (fun c v hv => (info_terminate_holds hopen hcurrent).2 (.inl hv))
    (fun v _ => by simp) (fun v hle hlt => ?_) (fun c v hv => .inl ?_) (fun v u hu => .inl ?_)
    (fun c t' ht' v hv => ?_)
  · rw [valueCount_terminate] at hlt
    omega
  · rcases (info_terminate_holds hopen hcurrent).1 hv with hv | ⟨-, normal, unwind, rfl⟩
    · exact hv
    · cases hinvoke
  · rwa [valueInfo_terminate] at hu
  · rcases terminator?_terminate ht' with rfl | ht'
    · exact .inr (by rw [valueCount_terminate]; exact ht v hv)
    · exact .inl ht'

theorem invoke_placed {b : Builder} (h : b.function.Placed)
    (hcurrent : b.current.index < b.blockCount) (hopen : b.isTerminated b.current = false)
    {arguments : List Value} (harguments : ∀ v ∈ arguments, v.index < b.valueCount) (callee : String)
    (result : Ty) (normal unwind : Block) :
    (b.invoke callee arguments result normal unwind).2.function.Placed := by
  -- The call is a new value, which the end of the block places.
  let mid := (b.newValue (.call callee arguments) result b.current).2
  have hholds : ∀ {t : Terminator} {c : Block} {v : Value}, ((mid.terminate t).info c).Holds v ↔
      (b.info c).Holds v ∨ c = b.current ∧ ∃ normal unwind, t = .invoke v normal unwind :=
    info_terminate_holds (b := mid) hopen hcurrent
  have hvalue := valueInfo_newValue b (.call callee arguments) result b.current
  have hcount : ∀ t, (mid.terminate t).valueCount = b.valueCount + 1 := by
    intro t
    rw [valueCount_terminate]
    exact Array.size_push _
  rw [invoke_eq]
  refine placed_of_step h ?_ (fun c v hv => hholds.2 (.inl hv)) (fun v hv => ?_) (fun v hle hlt => ?_)
    (fun c v hv => ?_) (fun v u hu => ?_) (fun c t ht v hv => ?_)
  · rw [hcount]
    omega
  · rw [valueInfo_terminate, hvalue, if_neg (Nat.ne_of_lt hv)]
  · rw [hcount] at hlt
    have hv : v.index = b.valueCount := by omega
    rw [valueInfo_terminate, hvalue, if_pos hv]
    refine hholds.2 (.inr ⟨rfl, normal, unwind, ?_⟩)
    rw [← hv]
  · rcases hholds.1 hv with hv | ⟨-, _, _, heq⟩
    · exact .inl hv
    · cases heq
      exact .inr (by rw [hcount]; exact Nat.lt_succ_self _)
  · rw [valueInfo_terminate, hvalue] at hu
    split at hu
    · exact .inr (by rw [hcount]; exact Nat.lt_succ_of_lt (harguments u hu))
    · exact .inl hu
  · rcases terminator?_terminate ht with rfl | ht
    · simp [Terminator.reads] at hv
    · exact .inl ht

/-- The functions that come of the steps of a builder hold every value where it is recorded. -/
theorem Built.placed {b : Builder} (h : b.Built) :
    b.function.Placed ∧ b.current.index < b.blockCount := by
  induction h with
  | start name params result => exact ⟨start_placed name params result, Nat.zero_lt_one⟩
  | newBlock label _ ih =>
    refine ⟨newBlock_placed ih.1 label, ?_⟩
    rw [current_newBlock, blockCount_newBlock]
    exact Nat.lt_succ_of_lt ih.2
  | setCurrent _ hblock ih => exact ⟨ih.1, hblock⟩
  | push ty _ hinst ih => exact ⟨push_placed ih.1 ih.2 ty hinst, by simpa using ih.2⟩
  | phi ty _ hblock ih => exact ⟨phi_placed ih.1 hblock ty, by simpa using ih.2⟩
  | addIncoming phi pred _ hv ih => exact ⟨addIncoming_placed ih.1 phi pred hv, ih.2⟩
  | terminate _ hopen hinvoke ht ih =>
    exact ⟨terminate_placed ih.1 ih.2 hopen hinvoke ht, by simpa using ih.2⟩
  | invoke callee result normal unwind _ hopen harguments ih =>
    refine ⟨invoke_placed ih.1 ih.2 hopen harguments callee result normal unwind, ?_⟩
    rw [invoke_eq, current_terminate, blockCount_terminate]
    exact ih.2

end Builder

end Abacus.Flow
