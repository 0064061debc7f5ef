import Abacus.Proofs.Checked.Emitter
import Abacus.Proofs.Variables.Search

/-!
# What the demands depend on

Whether a demand is met can be told from little: which blocks there are, which of them have an end,
which have been sealed, and which variables have been declared. This is the `View` of a draft. Every step
changes the view in a way of its own, and a search does not change it at all.

* `View`, `Draft.Shows` — views of drafts;
* `Drafting.Meets` — work whose demands are met, so that it does what it does without them;
* `View.Meets` — the same for all drafts of a view;
* `meets_push`, `meets_terminate`, `meets_read`, `meets_sealBlock` and others — steps.
-/

namespace Abacus.Lowering

open Abacus.Flow (Value Block BlockInfo Ty Inst Terminator Builder Function)

/-! ## Views -/

/-- What the demands depend on. Blocks stand as their numbers. -/
structure View where
  count : Nat
  current : Nat
  ended : Nat → Bool
  isSealed : Nat → Bool
  declared : SymbolId → Bool

namespace View

variable (v : View)

/-- One more block. -/
abbrev grow : View := { v with count := v.count + 1 }

/-- Another current block. -/
abbrev enter (b : Block) : View := { v with current := b.index }

/-- An end for the current block. -/
abbrev finish : View := { v with ended := fun i => v.ended i || i == v.current }

/-- One more sealed block. -/
abbrev sealBlock (b : Block) : View := { v with isSealed := fun i => v.isSealed i || i == b.index }

/-- One more variable. -/
abbrev declare (x : SymbolId) : View := { v with declared := fun y => v.declared y || y == x }

/-- The current block exists and has no end. -/
abbrev Open : Prop := v.current < v.count ∧ v.ended v.current = false

end View

/-- What can be seen of a draft. -/
def Draft.view (d : Draft) : View where
  count := d.builder.blockCount
  current := d.builder.current.index
  ended i := d.builder.isTerminated ⟨i⟩
  isSealed i := d.known.isSealed ⟨i⟩
  declared x := (d.known.type? x).isSome

/-- The draft has this view. What waits for operands, those of `pending` among them, are phis of
variables that have been declared. -/
structure Draft.Shows (d : Draft) (v : View) (pending : List OpenPhi) : Prop where
  view : d.view = v
  phis : ∀ p ∈ pending ++ d.known.incomplete,
    (d.builder.function.inst p.phi).isPhi = true ∧ v.declared p.var = true

theorem Draft.Shows.tail {d : Draft} {v : View} {p : OpenPhi} {pending : List OpenPhi}
    (h : d.Shows v (p :: pending)) : d.Shows v pending :=
  ⟨h.view, fun q hq => h.phis q (List.mem_cons_of_mem _ hq)⟩

/-! ## Phis -/

/-- Phis stay phis. -/
def KeepsPhis (b b' : Builder) : Prop :=
  ∀ u, (b.function.inst u).isPhi = true → (b'.function.inst u).isPhi = true

theorem keepsPhis_of_values {b b' : Builder} (h : ∀ u, b'.valueInfo u = b.valueInfo u) :
    KeepsPhis b b' := by
  intro u hu
  unfold Function.inst
  rw [show b'.function.value u = b.function.value u from h u]
  exact hu

/-- A new value takes the place of none. -/
theorem keepsPhis_newValue (b : Builder) (inst : Inst) (ty : Ty) (block : Block) :
    KeepsPhis b (b.newValue inst ty block).2 := by
  intro u hu
  have hlt : u.index < b.valueCount := by
    by_contra hge
    unfold Function.inst at hu
    rw [Function.value_of_le (Nat.not_lt.1 hge)] at hu
    cases hu
  have hinfo := b.valueInfo_newValue inst ty block u
  rw [if_neg (by omega)] at hinfo
  unfold Function.inst
  rw [show (b.newValue inst ty block).2.function.value u = b.function.value u from hinfo]
  exact hu

theorem keepsPhis_addIncoming (b : Builder) (phi : Value) (pred : Block) (w : Value) :
    KeepsPhis b (b.addIncoming phi pred w) := by
  intro u hu
  have hinfo := b.valueInfo_addIncoming phi pred w u
  unfold Function.inst at hu ⊢
  rw [show (b.addIncoming phi pred w).function.value u = _ from hinfo]
  split
  · unfold Builder.addOperand
    rw [show b.valueInfo u = b.function.value u from rfl]
    split
    · rfl
    · exact hu
  · exact hu

/-- What is made as a phi is one. -/
theorem isPhi_phi (b : Builder) (block : Block) (ty : Ty) :
    (((b.phi block ty).2).function.inst ⟨b.valueCount⟩).isPhi = true := by
  have hinfo := b.valueInfo_phi block ty ⟨b.valueCount⟩
  rw [if_pos rfl] at hinfo
  unfold Function.inst
  rw [show (b.phi block ty).2.function.value ⟨b.valueCount⟩ = _ from hinfo]
  rfl

/-- A draft with the same view, in which phis are still phis. -/
theorem Draft.Shows.keep {d d' : Draft} {v : View} {pending : List OpenPhi} (h : d.Shows v pending)
    (hview : d'.view = d.view) (hkeeps : KeepsPhis d.builder d'.builder)
    (hwaiting : d'.known.incomplete = d.known.incomplete) : d'.Shows v pending := by
  constructor
  · rw [hview, h.view]
  · intro p hp
    rw [hwaiting] at hp
    obtain ⟨hphi, hdeclared⟩ := h.phis p hp
    exact ⟨hkeeps _ hphi, hdeclared⟩

/-! ## The views of changed drafts -/

theorem Variables.isSome_type?_declare (known : Variables) (x y : SymbolId) (ty : Ty) :
    ((known.declare x ty).type? y).isSome = ((known.type? y).isSome || y == x) := by
  unfold type? declare
  rw [Std.TreeMap.getElem?_insertIfNew]
  by_cases hy : y = x
  · subst hy
    by_cases hmem : y ∈ known.types
    · simp [hmem]
    · simp [hmem]
  · have hne : compare x y ≠ .eq := fun h => hy (Std.LawfulEqOrd.eq_of_compare h).symm
    simp [hne, hy]

namespace Draft

variable {d : Draft}

/-- A builder in which the same blocks have an end gives the same view. -/
theorem view_congr {b : Builder} (hcount : b.blockCount = d.builder.blockCount)
    (hcurrent : b.current = d.builder.current)
    (hended : ∀ c, (b.info c).terminator? = (d.builder.info c).terminator?) :
    Draft.view ⟨b, d.known⟩ = d.view := by
  unfold view Builder.isTerminated
  rw [hcount, hcurrent]
  congr 1
  funext i
  rw [hended]

theorem view_newBlock (label : String) :
    Draft.view ⟨(d.builder.newBlock label).2, d.known⟩ = d.view.grow := by
  have hended : ∀ c, ((d.builder.newBlock label).2.info c).terminator? =
      (d.builder.info c).terminator? := by
    intro c
    rw [Builder.info_newBlock]
    split
    · next hc => rw [Builder.info, Function.block_of_le (Nat.le_of_eq hc.symm), BlockInfo.fresh,
        Function.terminator?_default]
    · rfl
  unfold view View.grow Builder.isTerminated
  rw [Builder.blockCount_newBlock]
  congr 1
  funext i
  rw [hended]

theorem view_push (inst : Inst) (ty : Ty) :
    Draft.view ⟨(d.builder.push inst ty).2, d.known⟩ = d.view := by
  apply view_congr (d.builder.blockCount_push inst ty) rfl
  intro c
  rw [Builder.info_push]
  split <;> rfl

theorem view_terminate {t : Terminator} (hopen : d.view.Open) :
    Draft.view ⟨d.builder.terminate t, d.known⟩ = d.view.finish := by
  have hended : ∀ i, (d.builder.terminate t).isTerminated ⟨i⟩ =
      (d.builder.isTerminated ⟨i⟩ || i == d.builder.current.index) := by
    intro i
    unfold Builder.isTerminated
    by_cases hi : i < d.builder.blockCount
    · rw [show (d.builder.terminate t).function.block ⟨i⟩ = _ from
        d.builder.info_terminate t ⟨i⟩ hi]
      by_cases hcurrent : (⟨i⟩ : Block) = d.builder.current
      · simp [← hcurrent]
      · have hne : i ≠ d.builder.current.index := fun h => hcurrent (Block.ext_index h)
        simp [hcurrent, hne]
    · have hle := Nat.not_lt.1 hi
      have hlt : d.builder.current.index < d.builder.blockCount := hopen.1
      have hne : i ≠ d.builder.current.index := by omega
      have hle' : (d.builder.terminate t).blockCount ≤ i := by
        rw [Builder.blockCount_terminate]
        exact hle
      rw [Function.block_of_le hle, Function.block_of_le hle']
      simp [hne]
  unfold view View.finish
  rw [Builder.blockCount_terminate, Builder.current_terminate]
  congr 1
  funext i
  exact hended i

theorem view_declare (x : SymbolId) (ty : Ty) :
    Draft.view ⟨d.builder, d.known.declare x ty⟩ = d.view.declare x := by
  unfold view View.declare
  congr 1
  funext y
  rw [Variables.isSome_type?_declare]

theorem view_close (b : Block) : (Drafting.close d b).view = d.view.sealBlock b := by
  unfold view View.sealBlock
  congr 1
  funext i
  rw [Drafting.isSealed_close, Bool.or_comm]
  congr 1
  by_cases hi : i = b.index
  · subst hi
    simp
  · have hne : (⟨i⟩ : Block) ≠ b := fun h => hi (congrArg Block.index h)
    simp [hi, hne]

theorem Shows.close {v : View} {pending : List OpenPhi} (h : d.Shows v pending) (b : Block) :
    (Drafting.close d b).Shows (v.sealBlock b) pending := by
  refine ⟨?_, h.phis⟩
  rw [← h.view]
  exact view_close b

/-- An end that is given to the current block. -/
theorem Shows.finish {v : View} {t : Terminator} (h : d.Shows v []) (hopen : v.Open) :
    Draft.Shows ⟨d.builder.terminate t, d.known⟩ v.finish [] := by
  have hview := h.view
  subst hview
  refine ⟨view_terminate hopen, fun p hp => ?_⟩
  obtain ⟨hphi, hdeclared⟩ := h.phis p hp
  exact ⟨keepsPhis_of_values (d.builder.valueInfo_terminate t) _ hphi, hdeclared⟩

/-- A value that stands in no list of instructions. -/
theorem Shows.newValue {v : View} {inst : Inst} {ty : Ty} {block : Block} (h : d.Shows v []) :
    Draft.Shows ⟨(d.builder.newValue inst ty block).2, d.known⟩ v [] :=
  h.keep (view_congr rfl rfl fun _ => rfl) (keepsPhis_newValue d.builder inst ty block) rfl

/-- The phis of a block wait no longer, but are to be filled. -/
theorem Shows.release {v : View} {b : Block} (h : d.Shows v []) :
    (Drafting.release d b).Shows v (d.known.incompleteOf b).reverse := by
  refine ⟨h.view, fun p hp => h.phis p ?_⟩
  rcases List.mem_append.1 hp with hmem | hmem
  · exact (List.mem_filter.1 (List.mem_reverse.1 hmem)).1
  · exact (List.mem_filter.1 hmem).1

end Draft

/-! ## Work whose demands are met -/

namespace Drafting

variable {α β : Type} {checked plain : Drafting α} {checkedNext plainNext : α → Drafting β} {d : Draft}
  {mid : α → Draft → Prop} {post : β → Draft → Prop}

/-- The work with its demands does what the work without them does, and when it succeeds something
holds. -/
def Meets (checked plain : Drafting α) (d : Draft) (mid : α → Draft → Prop) : Prop :=
  checked.on d = plain.on d ∧ ∀ a d', plain.on d = (.ok a, d') → mid a d'

theorem Meets.bind (h : Meets checked plain d mid)
    (hnext : ∀ a d', mid a d' → Meets (checkedNext a) (plainNext a) d' post) :
    Meets (checked >>= checkedNext) (plain >>= plainNext) d post := by
  obtain ⟨heq, hmid⟩ := h
  constructor
  · rw [on_bind, on_bind, heq]
    rcases hrun : plain.on d with ⟨e | a, d'⟩
    · rfl
    · exact (hnext a d' (hmid a d' hrun)).1
  · intro b d₂ hrun
    obtain ⟨a, d₁, hfirst, hrest⟩ := on_bind_ok hrun
    exact (hnext a d₁ (hmid a d₁ hfirst)).2 b d₂ hrest

theorem Meets.mono {post : α → Draft → Prop} (h : Meets checked plain d mid)
    (himp : ∀ a d', mid a d' → post a d') : Meets checked plain d post :=
  ⟨h.1, fun a d' hrun => himp a d' (h.2 a d' hrun)⟩

/-- Work without demands meets them. -/
theorem meets_self {post : α → Draft → Prop} (h : ∀ a d', plain.on d = (.ok a, d') → post a d') :
    Meets plain plain d post := ⟨rfl, h⟩

theorem meets_pure {a : α} (h : mid a d) : Meets (pure a) (pure a) d mid := by
  apply meets_self
  intro a' d' hrun
  cases hrun
  exact h

theorem meets_get (d : Draft) : Meets get get d fun d₁ d₂ => d₁ = d ∧ d₂ = d := by
  apply meets_self
  intro d₁ d₂ hrun
  cases hrun
  exact ⟨rfl, rfl⟩

/-- A demand that is met does nothing. -/
theorem on_demand {checks : Checked.Checks} {what : Checked.Demand} (h : what.holds d = true) :
    (Checked.demand checks what).on d = (.ok (), d) := by
  cases checks with
  | none => rfl
  | some complaint =>
    unfold Checked.demand
    dsimp only
    rw [on_bind, on_get]
    simp [h]

/-- A demand that is not met stops the work with the complaint about it. -/
theorem on_demand_unmet {complaint : Checked.Demand → LoweringError} {what : Checked.Demand}
    (h : what.holds d = false) :
    (Checked.demand (some complaint) what).on d = (.error (complaint what), d) := by
  unfold Checked.demand
  dsimp only
  rw [on_bind, on_get]
  simp [h]

theorem Meets.demand {checks : Checked.Checks} {what : Checked.Demand} (hwhat : what.holds d = true)
    (h : Meets checked plain d mid) :
    Meets (Checked.demand checks what >>= fun _ => checked) plain d mid := by
  refine ⟨?_, h.2⟩
  rw [on_bind, on_demand hwhat]
  exact h.1

end Drafting

/-! ## Searches -/

namespace Draft

variable {d : Draft} {v : View} {pending : List OpenPhi} {x : SymbolId} {b : Block} {ty : Ty}
  {waiting : List OpenPhi} {blocks : List Block}

theorem view_bindAll (u : Value) : (d.bindAll x blocks u).view = d.view := by
  unfold view
  congr 1
  · funext i
    exact isSealed_bindAll d x blocks u ⟨i⟩
  · funext y
    rw [type?_bindAll]

theorem view_settle : (d.settle x b ty waiting blocks).view = d.view := by
  unfold settle
  rw [view_bindAll]
  unfold view placePhi
  congr 1
  · exact d.builder.blockCount_phi b ty
  · funext i
    unfold Builder.isTerminated
    rw [show (d.builder.phi b ty).2.function.block ⟨i⟩ = _ from d.builder.info_phi b ty ⟨i⟩]
    split <;> rfl

/-- Phis that are made stand among those that wait for operands, or are still to be filled. -/
theorem Shows.settle (h : d.Shows v pending) (hx : v.declared x = true) (made : List OpenPhi)
    (hmade : ∀ p ∈ waiting ++ made, p = ⟨x, b, ⟨d.builder.valueCount⟩⟩) :
    (d.settle x b ty waiting blocks).Shows v (made ++ pending) := by
  refine ⟨view_settle.trans h.view, fun p hp => ?_⟩
  have hcases : p ∈ waiting ++ made ∨ p ∈ pending ++ d.known.incomplete := by
    unfold Draft.settle at hp
    rw [incomplete_bindAll] at hp
    simp only [placePhi, List.mem_append] at hp ⊢
    tauto
  show (((d.builder.phi b ty).2).function.inst p.phi).isPhi = true ∧ _
  rcases hcases with hnew | hold
  · rw [hmade p hnew]
    exact ⟨isPhi_phi d.builder b ty, hx⟩
  · obtain ⟨hphi, hdeclared⟩ := h.phis p hold
    exact ⟨keepsPhis_newValue d.builder (.phi []) ty b p.phi hphi, hdeclared⟩

end Draft

namespace Drafting

variable {checks : Checked.Checks} {d d' : Draft} {v : View} {pending : List OpenPhi} {x : SymbolId}
  {b : Block}

/-- A search keeps the view, and what it makes are phis of its variable. -/
theorem shows_resolve {u : Value} {made : List OpenPhi} (h : d.Shows v pending)
    (hx : v.declared x = true)
    (hrun : (resolve x b).on d = (.ok (u, made), d')) : d'.Shows v (made ++ pending) := by
  rw [on_resolve] at hrun
  rcases hwalk : d.walkFrom x b with ⟨gone, u | stop | stop | _⟩
  case bound =>
    rw [hwalk] at hrun
    cases hrun
    apply h.keep (d.view_bindAll _) (keepsPhis_of_values fun _ => rfl)
    exact d.incomplete_bindAll _ _ _
  case unsealed =>
    rw [hwalk] at hrun
    dsimp only at hrun
    split at hrun
    · cases hrun
    · cases hrun
      exact h.settle hx [] (by simp)
  case merge =>
    rw [hwalk] at hrun
    dsimp only at hrun
    split at hrun
    · cases hrun
    · cases hrun
      exact h.settle hx _ (by simp)
  case endless =>
    rw [hwalk] at hrun
    cases hrun

theorem meets_resolve (h : d.Shows v pending) (hx : v.declared x = true) (b : Block) :
    Meets (resolve x b) (resolve x b) d fun found d' => d'.Shows v (found.2 ++ pending) :=
  meets_self fun _ _ hrun => shows_resolve h hx hrun

theorem meets_addIncoming {phi u : Value} {pred : Block} (h : d.Shows v pending)
    (hphi : (d.builder.function.inst phi).isPhi = true) :
    Meets (Checked.addIncoming checks phi pred u) (rebuild fun b => b.addIncoming phi pred u) d
      fun _ d' => d'.Shows v pending := by
  have hdemand : Checked.Demand.holds d (.operand phi) = true := hphi
  apply Meets.demand hdemand
  apply meets_self
  intro _ d' hrun
  cases hrun
  exact h.keep rfl (keepsPhis_addIncoming _ _ _ _) rfl

theorem meets_release (h : d.Shows v []) :
    Meets (note fun known => { known with incomplete := known.incomplete.filter (·.block ≠ b) })
      (note fun known => { known with incomplete := known.incomplete.filter (·.block ≠ b) }) d
      fun _ d' => d'.Shows v (d.known.incompleteOf b).reverse := by
  apply meets_self
  intro _ d' hrun
  cases hrun
  exact h.release

theorem meets_fillFrom {p : OpenPhi} {later : List OpenPhi} {pred : Block}
    (h : d.Shows v (p :: later)) : Meets (Checked.fillFrom checks p later pred)
      (fillFrom p later pred) d fun later' d' => d'.Shows v (p :: later') := by
  have hdeclared : v.declared p.var = true := (h.phis p (by simp)).2
  have hreading : Checked.Demand.holds d (.reading p.var) = true := by
    rw [← h.view] at hdeclared
    exact hdeclared
  apply Meets.demand hreading
  apply (meets_resolve h hdeclared pred).bind
  intro ⟨w, made⟩ d₁ h₁
  -- The phi that is filled stands behind those that its operands have made.
  have hphi : (d₁.builder.function.inst p.phi).isPhi = true := (h₁.phis p (by simp)).1
  apply (meets_addIncoming h₁ hphi).bind
  intro _ d₂ h₂
  apply meets_pure
  exact ⟨h₂.view, fun q hq => h₂.phis q (by simp at hq ⊢; tauto)⟩

/-- The operands of a phi are read one after the other; the phis that this makes are added to the
others. -/
theorem meets_operands {p : OpenPhi} (preds : List Block) {later : List OpenPhi}
    (h : d.Shows v (p :: later)) : Meets (preds.foldlM (Checked.fillFrom checks p) later)
      (preds.foldlM (fillFrom p) later) d fun later' d' => d'.Shows v (p :: later') := by
  induction preds generalizing later d with
  | nil => exact meets_pure h
  | cons pred rest ih =>
    rw [List.foldlM_cons, List.foldlM_cons]
    exact (meets_fillFrom h).bind fun _ _ h₁ => ih h₁

theorem meets_fill (rounds : Nat) (h : d.Shows v pending) :
    Meets (Checked.fill checks rounds pending) (fill rounds pending) d fun _ d' => d'.Shows v [] := by
  induction rounds generalizing pending d with
  | zero =>
    cases pending with
    | nil => exact meets_pure h
    | cons p rest => exact meets_self fun _ _ hrun => by cases hrun
  | succ rounds ih =>
    cases pending with
    | nil => exact meets_pure h
    | cons p rest =>
      rw [Checked.fill, fill]
      apply (meets_get d).bind
      rintro _ _ ⟨rfl, rfl⟩
      exact (meets_operands _ h).bind fun later d₁ h₁ => ih h₁.tail

theorem meets_fillAll (h : d.Shows v pending) :
    Meets (Checked.fillAll checks pending) (fillAll pending) d fun _ d' => d'.Shows v [] := by
  unfold Checked.fillAll fillAll
  apply (meets_get d).bind
  rintro _ _ ⟨rfl, rfl⟩
  exact meets_fill _ h

end Drafting

/-! ## Work on the drafts of a view -/

namespace View

variable {α β : Type} {checked plain : Drafting α} {checkedNext plainNext : α → Drafting β}
  {checks : Checked.Checks} {v w : View} {mid : α → View → Prop} {post : β → View → Prop}

/-- For all drafts of the view the demands of the work are met, and when it succeeds something
holds of its result and of the view after it. -/
def Meets (checked plain : Drafting α) (v : View) (mid : α → View → Prop) : Prop :=
  ∀ d : Draft, d.Shows v [] →
    Drafting.Meets checked plain d fun a d' => ∃ v', d'.Shows v' [] ∧ mid a v'

theorem Meets.bind (h : Meets checked plain v mid)
    (hnext : ∀ a v', mid a v' → Meets (checkedNext a) (plainNext a) v' post) :
    Meets (checked >>= checkedNext) (plain >>= plainNext) v post := by
  intro d hd
  apply (h d hd).bind
  rintro a d₁ ⟨v₁, hd₁, hmid⟩
  exact hnext a v₁ hmid d₁ hd₁

/-- A step with a known result, after which the view is known. -/
theorem Meets.know {a : α} (h : Meets checked plain v fun a' v' => a' = a ∧ v' = w)
    (hnext : Meets (checkedNext a) (plainNext a) w post) :
    Meets (checked >>= checkedNext) (plain >>= plainNext) v post := by
  apply h.bind
  rintro _ _ ⟨rfl, rfl⟩
  exact hnext

/-- A step after which the view is known. -/
theorem Meets.step (h : Meets checked plain v fun _ v' => v' = w)
    (hnext : ∀ a, Meets (checkedNext a) (plainNext a) w post) :
    Meets (checked >>= checkedNext) (plain >>= plainNext) v post := by
  apply h.bind
  rintro a _ rfl
  exact hnext a

theorem Meets.mono {post : α → View → Prop} (h : Meets checked plain v mid)
    (himp : ∀ a v', mid a v' → post a v') : Meets checked plain v post := by
  intro d hd
  apply (h d hd).mono
  rintro a d' ⟨v', hd', hmid⟩
  exact ⟨v', hd', himp a v' hmid⟩

theorem meets_pure {a : α} (h : mid a v) : Meets (pure a) (pure a) v mid :=
  fun _ hd => Drafting.meets_pure ⟨v, hd, h⟩

/-- A demand that is met for all drafts of the view. -/
theorem Meets.demand {what : Checked.Demand} (hwhat : ∀ d : Draft, d.view = v → what.holds d = true)
    (h : Meets checked plain v mid) :
    Meets (Checked.demand checks what >>= fun _ => checked) plain v mid :=
  fun d hd => (h d hd).demand (hwhat d hd.view)

/-! ## Steps -/

theorem meets_currentBlock (v : View) : Meets Drafting.currentBlock Drafting.currentBlock v
    fun b v' => b = ⟨v.current⟩ ∧ v' = v := by
  intro d hd
  apply Drafting.meets_self
  intro b d' hrun
  cases hrun
  exact ⟨v, hd, by rw [← hd.view]; rfl, rfl⟩

theorem meets_newBlock (label : String) (v : View) :
    Meets (Drafting.newBlock label) (Drafting.newBlock label) v
      fun b v' => b = ⟨v.count⟩ ∧ v' = v.grow := by
  intro d hd
  apply Drafting.meets_self
  intro b d' hrun
  cases hrun
  have hview := hd.view
  subst hview
  exact ⟨_, ⟨Draft.view_newBlock label, hd.phis⟩, rfl, rfl⟩

theorem meets_setCurrent (b : Block) (v : View) :
    Meets (Drafting.setCurrent b) (Drafting.setCurrent b) v fun _ v' => v' = v.enter b := by
  intro d hd
  apply Drafting.meets_self
  intro _ d' hrun
  cases hrun
  exact ⟨v.enter b, ⟨by rw [← hd.view]; rfl, hd.phis⟩, rfl⟩

theorem meets_write (x : SymbolId) (b : Block) (u : Value) (v : View) :
    Meets (Drafting.write x b u) (Drafting.write x b u) v fun _ v' => v' = v := by
  intro d hd
  apply Drafting.meets_self
  intro _ d' hrun
  cases hrun
  exact ⟨v, hd.keep rfl (keepsPhis_of_values fun _ => rfl) rfl, rfl⟩

theorem meets_typeOf (u : Value) (v : View) :
    Meets (Drafting.typeOf u) (Drafting.typeOf u) v fun _ v' => v' = v := by
  intro d hd
  apply Drafting.meets_self
  intro _ d' hrun
  cases hrun
  exact ⟨v, hd, rfl⟩

theorem meets_declare (x : SymbolId) (ty : Ty) (v : View) :
    Meets (Drafting.declare x ty) (Drafting.declare x ty) v fun _ v' => v' = v.declare x := by
  intro d hd
  apply Drafting.meets_self
  intro _ d' hrun
  cases hrun
  have hview := hd.view
  subst hview
  refine ⟨_, ⟨Draft.view_declare x ty, fun p hp => ?_⟩, rfl⟩
  obtain ⟨hphi, hdeclared⟩ := hd.phis p hp
  exact ⟨hphi, by simp [hdeclared]⟩

theorem holds_instruction (hopen : v.Open) {d : Draft} (hd : d.view = v) :
    Checked.Demand.instruction.holds d = true := by
  subst hd
  exact congrArg not hopen.2

theorem meets_push (inst : Inst) (ty : Ty) (hopen : v.Open) :
    Meets (Checked.push checks inst ty) (Drafting.emit inst ty) v fun _ v' => v' = v := by
  apply Meets.demand fun d hd => holds_instruction hopen hd
  intro d hd
  apply Drafting.meets_self
  intro _ d' hrun
  cases hrun
  exact ⟨v, hd.keep (Draft.view_push inst ty) (keepsPhis_newValue d.builder inst ty _) rfl, rfl⟩

theorem holds_ending {targets : List Block} (hopen : v.Open)
    (htargets : ∀ t ∈ targets, v.isSealed t.index = false) {d : Draft} (hd : d.view = v) :
    (Checked.Demand.ending targets).holds d = true := by
  subst hd
  simp only [Checked.Demand.holds, Bool.and_eq_true, Bool.not_eq_true', List.all_eq_true]
  exact ⟨hopen.2, htargets⟩

theorem meets_terminate {t : Terminator} (hopen : v.Open)
    (htargets : ∀ b ∈ t.successors, v.isSealed b.index = false) :
    Meets (Checked.terminate checks t) (Drafting.terminate t) v fun _ v' => v' = v.finish := by
  apply Meets.demand fun d hd => holds_ending hopen htargets hd
  intro d hd
  apply Drafting.meets_self
  intro _ d' hrun
  cases hrun
  exact ⟨_, hd.finish hopen, rfl⟩

theorem meets_startCall (callee : String) (arguments : List Value) {normal unwind : Block}
    (hopen : v.Open) (hnormal : v.isSealed normal.index = false)
    (hunwind : v.isSealed unwind.index = false) :
    Meets (Checked.startCall checks callee arguments normal unwind)
      (Drafting.build fun b => b.invoke callee arguments .int normal unwind) v
      fun _ v' => v' = v.finish := by
  apply Meets.demand fun d hd => holds_ending hopen (by simp [hnormal, hunwind]) hd
  intro d hd
  apply Drafting.meets_self
  intro _ d' hrun
  rw [Drafting.on_build, Builder.invoke_eq, Prod.mk.injEq] at hrun
  obtain ⟨-, rfl⟩ := hrun
  -- The call is a new value, and the end comes after it.
  exact ⟨_, hd.newValue.finish hopen, rfl⟩

theorem holds_reading {x : SymbolId} (hx : v.declared x = true) {d : Draft} (hd : d.view = v) :
    (Checked.Demand.reading x).holds d = true := by
  subst hd
  exact hx

theorem meets_read {x : SymbolId} (b : Block) (hx : v.declared x = true) :
    Meets (Checked.read checks x b) (Drafting.read x b) v fun _ v' => v' = v := by
  apply Meets.demand fun d hd => holds_reading hx hd
  intro d hd
  apply (Drafting.meets_resolve hd hx b).bind
  intro ⟨u, made⟩ d₁ h₁
  rw [List.append_nil] at h₁
  apply (Drafting.meets_fillAll h₁).bind
  intro _ d₂ h₂
  exact Drafting.meets_pure ⟨v, h₂, rfl⟩

theorem holds_sealing {b : Block} (hb : v.isSealed b.index = false) {d : Draft} (hd : d.view = v) :
    (Checked.Demand.sealing b).holds d = true := by
  subst hd
  exact congrArg not hb

theorem meets_sealBlock {b : Block} (hb : v.isSealed b.index = false) :
    Meets (Checked.sealBlock checks b) (Drafting.sealBlock b) v fun _ v' => v' = v.sealBlock b := by
  apply Meets.demand fun d hd => holds_sealing hb hd
  intro d hd
  have hnot : ¬ d.known.isSealed b = true := by
    rw [← hd.view] at hb
    exact ne_true_of_eq_false hb
  apply (Drafting.meets_get d).bind
  rintro _ _ ⟨rfl, rfl⟩
  rw [if_neg hnot, if_neg hnot]
  apply (Drafting.meets_release hd).bind
  intro _ d₁ h₁
  apply (Drafting.meets_fillAll h₁).bind
  intro _ d₂ h₂
  apply Drafting.meets_self
  intro _ d₃ hrun
  cases hrun
  exact ⟨_, h₂.close b, rfl⟩

end View

end Abacus.Lowering
