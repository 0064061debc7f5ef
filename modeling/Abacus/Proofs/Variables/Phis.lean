import Abacus.Proofs.Variables.Stability

/-!
# One phi for each block and variable

A phi is made for a variable where the variable has no value, and is bound there at once. So no second
phi is made for the same variable in the same block, whatever the graph and in whatever order blocks are
sealed.

* `Draft.Single` — each block has at most one phi for each variable;
* `single_upkeep` — searches keep to it;
* `Recording.single_run` — so does every run.
-/

namespace Abacus.Lowering

open Abacus.Flow (Value Block Ty Inst Terminator Builder BlockInfo Function)

/-- A block has at most one phi for each variable. Where it has one, the variable has a value. -/
structure Draft.Single (d : Draft) : Prop where
  exists' : ∀ {b v}, v ∈ (d.builder.info b).phis → v.index < d.builder.valueCount
  owned : ∀ {v x}, d.known.owner? v = some x → v.index < d.builder.valueCount
  nodup : ∀ b, (d.builder.info b).phis.Nodup
  bound : ∀ {b v x}, v ∈ (d.builder.info b).phis → d.known.owner? v = some x →
    (d.known.value? x b).isSome
  single : ∀ {b v w x}, v ∈ (d.builder.info b).phis → w ∈ (d.builder.info b).phis →
    d.known.owner? v = some x → d.known.owner? w = some x → v = w

namespace Draft.Single

variable {d : Draft} {x : SymbolId} {b : Block} {ty : Ty} {waiting : List OpenPhi}
  {blocks : List Block} {v : Value}

/-- More bindings. -/
theorem rebound {known : Variables} (h : d.Single) (howner : known.owner? = d.known.owner?)
    (hvalue : ∀ x b, (d.known.value? x b).isSome → (known.value? x b).isSome) :
    Single { d with known := known } where
  exists' := h.exists'
  owned hv := h.owned (howner ▸ hv)
  nodup := h.nodup
  bound hv hx := hvalue _ _ (h.bound hv (howner ▸ hx))
  single hv hw hx hy := h.single hv hw (howner ▸ hx) (howner ▸ hy)

/-- Another graph with the same phis. -/
theorem rebuilt {builder : Builder} (h : d.Single)
    (hcount : d.builder.valueCount ≤ builder.valueCount)
    (hphis : ∀ b, (builder.info b).phis = (d.builder.info b).phis) :
    Single { d with builder := builder } where
  exists' hv := Nat.lt_of_lt_of_le (h.exists' (hphis _ ▸ hv)) hcount
  owned hv := Nat.lt_of_lt_of_le (h.owned hv) hcount
  nodup b := (hphis b).symm ▸ h.nodup b
  bound hv hx := h.bound (hphis _ ▸ hv) hx
  single hv hw hx hy := h.single (hphis _ ▸ hv) (hphis _ ▸ hw) hx hy

theorem bindAll (h : d.Single) : (d.bindAll x blocks v).Single := by
  refine h.rebound (funext fun u => owner?_bindAll d x blocks v u) fun y c hsome => ?_
  rw [show (d.known.writeAll x blocks v).value? y c = _ from value?_bindAll d x y blocks c v]
  split
  · rfl
  · exact hsome

/-- A phi that belongs to no variable is no second phi of one. -/
theorem phi (h : d.Single) (b : Block) (ty : Ty) :
    Single { d with builder := (d.builder.phi b ty).2 } := by
  have hcount : (d.builder.phi b ty).2.valueCount = d.builder.valueCount + 1 :=
    Builder.valueCount_phi ..
  have hmem : ∀ {c u}, u ∈ ((d.builder.phi b ty).2.info c).phis →
      u ∈ (d.builder.info c).phis ∨ u = ⟨d.builder.valueCount⟩ := by
    intro c u hu
    rw [Builder.info_phi] at hu
    split at hu
    · simpa using hu
    · exact .inl hu
  have hold : ∀ {c u y}, u ∈ ((d.builder.phi b ty).2.info c).phis → d.known.owner? u = some y →
      u ∈ (d.builder.info c).phis := by
    intro c u y hu hy
    refine (hmem hu).resolve_right ?_
    rintro rfl
    exact Nat.lt_irrefl _ (h.owned hy)
  constructor
  case exists' =>
    intro c u hu
    rw [hcount]
    rcases hmem hu with hu | rfl
    · exact Nat.lt_succ_of_lt (h.exists' hu)
    · exact Nat.lt_succ_self _
  case owned => exact fun hy => hcount ▸ Nat.lt_succ_of_lt (h.owned hy)
  case nodup =>
    intro c
    show ((d.builder.phi b ty).2.info c).phis.Nodup
    rw [Builder.info_phi]
    split
    · refine List.nodup_append.2 ⟨h.nodup c, List.nodup_singleton _, fun u hu w hw => ?_⟩
      rw [List.mem_singleton.1 hw]
      rintro rfl
      exact Nat.lt_irrefl _ (h.exists' hu)
    · exact h.nodup c
  case bound => exact fun hu hy => h.bound (hold hu hy) hy
  case single => exact fun hu hw hy hy' => h.single (hold hu hy) (hold hw hy') hy hy'

/-- A new phi, bound where the variable had no value. -/
theorem settle (h : d.Single) (hnew : ∀ c ∈ blocks, d.known.value? x c = none) (hb : b ∈ blocks) :
    (d.settle x b ty waiting blocks).Single := by
  have hphi := h.phi b ty
  have howner : ∀ {u y}, (d.settle x b ty waiting blocks).known.owner? u = some y →
      u = ⟨d.builder.valueCount⟩ ∧ y = x ∨ d.known.owner? u = some y := by
    intro u y hu
    rw [owner?_settle] at hu
    split at hu
    · next he => exact .inl ⟨he, (Option.some.inj hu).symm⟩
    · exact .inr hu
  -- The new phi stands in `b` only, where no phi has been made for the variable before.
  have hfresh : ∀ {c u}, u ∈ ((d.builder.phi b ty).2.info c).phis → d.known.owner? u = some x →
      ⟨d.builder.valueCount⟩ ∉ ((d.builder.phi b ty).2.info c).phis := by
    intro c u hu hx hmem
    rw [Builder.info_phi] at hmem
    split at hmem
    · next hc =>
      have hsome := hphi.bound hu hx
      rw [show ({ d with builder := (d.builder.phi b ty).2 } : Draft).known = d.known from rfl, hc.1,
        hnew b hb] at hsome
      cases hsome
    · exact Nat.lt_irrefl _ (h.exists' hmem)
  have hvalue : ∀ y c, (d.known.value? y c).isSome →
      ((d.settle x b ty waiting blocks).known.value? y c).isSome := by
    intro y c hsome
    obtain ⟨r, hr⟩ := Option.isSome_iff_exists.1 hsome
    rw [value?_settle_of_some hnew hr]
    rfl
  constructor
  case exists' => exact hphi.exists'
  case owned =>
    intro u y hu
    rcases howner hu with ⟨rfl, -⟩ | hy
    · rw [valueCount_settle]
      exact Nat.lt_succ_self _
    · exact hphi.owned hy
  case nodup => exact hphi.nodup
  case bound =>
    intro c u y hu hy
    rcases howner hy with ⟨rfl, rfl⟩ | hy
    · have hc : c = b := by
        change _ ∈ ((d.builder.phi b ty).2.info c).phis at hu
        rw [Builder.info_phi] at hu
        split at hu
        · next hc => exact hc.1
        · exact absurd (h.exists' hu) (Nat.lt_irrefl _)
      rw [value?_settle, if_pos ⟨rfl, hc ▸ hb⟩]
      rfl
    · exact hvalue y c (hphi.bound hu hy)
  case single =>
    intro c u w y hu hw hy hy'
    rcases howner hy with ⟨rfl, rfl⟩ | hy <;> rcases howner hy' with ⟨rfl, hx⟩ | hy'
    · rfl
    · exact absurd hu (hfresh hw hy')
    · exact absurd hw (hfresh hu (hx ▸ hy))
    · exact hphi.single hu hw hy hy'

end Draft.Single

namespace Drafting

theorem single_upkeep : Upkeep (fun _ => True) (fun _ => True) Draft.Single where
  back _ _ _ := trivial
  bindAll h _ := h.bindAll
  settle h hnew hb _ _ _ _ := h.settle hnew hb
  made _ _ := trivial
  place _ := trivial
  addIncoming h _ := h.rebuilt (Nat.le_of_eq (Builder.valueCount_addIncoming ..).symm) fun _ => rfl

theorem single_sealBlock {d : Draft} (h : d.Single) (b : Block) : ((sealBlock b).on d).2.Single :=
  single_upkeep.sealBlock h (h.rebound rfl fun _ _ => id) (fun _ _ => trivial) (fun _ => id)
    fun _ h' => h'.rebound rfl fun _ _ => id

end Drafting

namespace Recording

variable {R : Recording}

/-- No step makes a second phi for a variable in a block. -/
theorem single_step (h : R.draft.Single) (op : Op) : (R.step op).draft.Single := by
  cases op with
  | newBlock label => exact h.rebuilt (Nat.le_refl _) fun b => (Builder.frame_newBlock _ label b).2
  | setCurrent c => exact h.rebuilt (Nat.le_refl _) fun _ => rfl
  | push inst ty => exact h.rebuilt (by simp) fun b => (Builder.frame_push _ inst ty b).2
  | terminate t =>
    exact h.rebuilt (Nat.le_of_eq (Builder.valueCount_terminate ..).symm) (Builder.phis_terminate _ t)
  | invoke callee arguments result normal unwind =>
    let called := (R.draft.builder.newValue (.call callee arguments) result R.draft.builder.current).2
    have hcall : Draft.Single { R.draft with builder := called } :=
      h.rebuilt (by simp [called, Builder.newValue, Builder.valueCount]) fun _ => rfl
    exact hcall.rebuilt (Nat.le_of_eq (Builder.valueCount_terminate ..).symm) (Builder.phis_terminate _ _)
  | phi c ty => exact h.phi c ty
  | addIncoming phi pred v =>
    exact h.rebuilt (Nat.le_of_eq (Builder.valueCount_addIncoming ..).symm) fun _ => rfl
  | declare y ty => exact h.rebound rfl fun _ _ => id
  | write y c v =>
    refine h.rebound rfl fun x b hsome => ?_
    rw [Variables.value?_write_eq]
    split
    · rfl
    · exact hsome
  | read y c =>
    rw [draft_read]
    exact Drafting.single_upkeep.read h y trivial
  | sealBlock c =>
    rw [draft_sealBlock]
    exact Drafting.single_sealBlock h c

theorem single_start (name : String) (params : List Ty) (result : Ty) :
    (start name params result).draft.Single := by
  have hphis : ∀ b, ((start name params result).draft.builder.info b).phis = [] :=
    fun b => (frame_start name params result b).2
  have howner : ∀ v, (start name params result).draft.known.owner? v = none :=
    fun v => Std.TreeMap.getElem?_emptyc
  constructor
  case exists' => exact fun hv => absurd (hphis _ ▸ hv) List.not_mem_nil
  case owned => exact fun hx => absurd (howner _ ▸ hx) nofun
  case nodup => exact fun b => hphis b ▸ List.nodup_nil
  case bound => exact fun hv => absurd (hphis _ ▸ hv) List.not_mem_nil
  case single => exact fun hv => absurd (hphis _ ▸ hv) List.not_mem_nil

/-- Neither does a run. -/
theorem single_run (h : R.draft.Single) (ops : List Op) : (R.run ops).draft.Single := by
  induction ops generalizing R with
  | nil => exact h
  | cons op rest ih => exact ih (single_step h op)

end Recording

end Abacus.Lowering
