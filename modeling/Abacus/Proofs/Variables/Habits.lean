import Abacus.Proofs.Variables.Search

/-!
# What searches keep

A search is put together from a few steps. So a property of work that those steps have, and that work
keeps which is put together from such work, is a property of searches. Some properties of drafts hold
only because searches write where nothing has been written: the steps keep them in the places in which
searches take these steps.

* `Defect.OfSearch` — what searches complain about;
* `Drafting.Habit` — a property of work;
* `Habit.read`, `Habit.sealBlock` — searches have it;
* `Leaves` — what holds of a draft however the work on it ends;
* `Drafting.Upkeep` — a property of drafts;
* `Upkeep.read`, `Upkeep.fillAll` — searches keep it.
-/

namespace Abacus.Lowering

open Abacus.Flow (Value Block Builder)

/-- What a search complains about. -/
inductive Defect.OfSearch : Defect → Prop
  | undeclared (x : SymbolId) (b : Block) : OfSearch (.undeclared x b)
  | endless (x : SymbolId) (b : Block) : OfSearch (.endless x b)
  | sealedTwice (b : Block) : OfSearch (.sealedTwice b)

namespace Drafting

/-- A property that the steps of a search have, and that stays when work is put together. -/
structure Habit (H : {α : Type} → Drafting α → Prop) : Prop where
  done : ∀ {α : Type} (a : α), H (pure a)
  bind : ∀ {α β : Type} {work : Drafting α} {next : α → Drafting β}, H work → (∀ a, H (next a)) →
    H (work >>= next)
  look : H get
  fail : ∀ {α : Type} (defect : Defect), defect.OfSearch →
    H (throw (.ofDefect defect) : Drafting α)
  make : ∀ x b, H (newPhi x b)
  wait : ∀ p, H (note fun known => { known with incomplete := known.incomplete ++ [p] })
  keep : ∀ x blocks v, H (note fun known => known.writeAll x blocks v)
  give : ∀ phi pred v, H (rebuild fun b => b.addIncoming phi pred v)

namespace Habit

variable {H : {α : Type} → Drafting α → Prop} (h : Habit H)
include h

theorem resolve (x : SymbolId) (b : Block) : H (resolve x b) := by
  refine h.bind h.look fun d => ?_
  split
  · exact h.bind (h.keep _ _ _) fun _ => h.done _
  · exact h.bind (h.make _ _) fun _ => h.bind (h.wait _) fun _ =>
      h.bind (h.keep _ _ _) fun _ => h.done _
  · exact h.bind (h.make _ _) fun _ => h.bind (h.keep _ _ _) fun _ => h.done _
  · exact h.fail _ (.endless _ _)

theorem operands (p : OpenPhi) (preds : List Block) (later : List OpenPhi) :
    H (preds.foldlM (fillFrom p) later) := by
  induction preds generalizing later with
  | nil => exact h.done later
  | cons q rest ih =>
    rw [List.foldlM_cons]
    refine h.bind (h.bind (h.resolve p.var q) fun _ => ?_) ih
    exact h.bind (h.give _ _ _) fun _ => h.done _

theorem fill (rounds : Nat) (phis : List OpenPhi) : H (fill rounds phis) := by
  induction rounds generalizing phis with
  | zero =>
    cases phis with
    | nil => exact h.done ()
    | cons p rest => exact h.fail _ (.endless _ _)
  | succ rounds ih =>
    cases phis with
    | nil => exact h.done ()
    | cons p rest => exact h.bind h.look fun _ => h.bind (h.operands p _ rest) ih

theorem fillAll (phis : List OpenPhi) : H (fillAll phis) :=
  h.bind h.look fun _ => h.fill _ phis

theorem read (x : SymbolId) (b : Block) : H (read x b) :=
  h.bind (h.resolve x b) fun _ => h.bind (h.fillAll _) fun _ => h.done _

/-- Sealing has two steps of its own. -/
theorem sealBlock {b : Block}
    (hrelease : H (note fun known =>
      { known with incomplete := known.incomplete.filter (·.block ≠ b) }))
    (hclose : H (note fun known => { known with sealedBlocks := known.sealedBlocks.insert b })) :
    H (sealBlock b) := by
  have hfill : ∀ phis, H (do
      note fun known => { known with incomplete := known.incomplete.filter (·.block ≠ b) }
      Drafting.fillAll phis
      note fun known => { known with sealedBlocks := known.sealedBlocks.insert b }) :=
    fun phis => h.bind hrelease fun _ => h.bind (h.fillAll phis) fun _ => hclose
  refine h.bind h.look fun d => ?_
  dsimp only
  split
  · exact h.bind (h.fail _ (.sealedTwice _)) fun _ => hfill _
  · exact hfill _

end Habit

end Drafting

/-! ## Work that may fail -/

/-- However the work ends, `Q` holds of the draft. If it succeeds, `post` holds of its result. -/
def Leaves {α : Type} (work : Drafting α) (d : Draft) (Q : Draft → Prop) (post : α → Prop) : Prop :=
  Q (work.on d).2 ∧ ∀ a, (work.on d).1 = .ok a → post a

section Leaves

variable {α β : Type} {work : Drafting α} {next : α → Drafting β} {d : Draft} {Q : Draft → Prop}
  {mid : α → Prop} {post : β → Prop}

theorem Leaves.bind (h : Leaves work d Q mid)
    (hnext : ∀ a d', mid a → Q d' → Leaves (next a) d' Q post) : Leaves (work >>= next) d Q post := by
  obtain ⟨hQ, hmid⟩ := h
  unfold Leaves
  rw [Drafting.on_bind]
  rcases hwork : work.on d with ⟨e | a, d'⟩ <;> rw [hwork] at hQ hmid
  · exact ⟨hQ, nofun⟩
  · exact hnext a d' (hmid a rfl) hQ

theorem leaves_pure {a : α} (hQ : Q d) (ha : mid a) : Leaves (pure a) d Q mid :=
  ⟨hQ, fun _ h => by cases h; exact ha⟩

theorem leaves_throw {e : LoweringError} (hQ : Q d) : Leaves (throw e) d Q mid := ⟨hQ, nofun⟩

theorem leaves_get {next : Draft → Drafting β} (h : Leaves (next d) d Q post) :
    Leaves (get >>= next) d Q post := by
  unfold Leaves at h ⊢
  rw [Drafting.on_bind, Drafting.on_get]
  exact h

end Leaves

/-! ## Properties of drafts -/

namespace Drafting

/-- The blocks that a walk goes through have no value for the variable. So does the block where it ends,
unless it ends at a value. -/
theorem unbound_of_walk {d : Draft} {x : SymbolId} {b : Block} {gone : List Block}
    {stop : Draft.WalkEnd} (hwalk : d.walkFrom x b = (gone, stop)) (hstop : stop ≠ .endless) :
    (∀ c ∈ gone, d.known.value? x c = none) ∧
      ∀ c, stop = .unsealed c ∨ stop = .merge c → d.known.value? x c = none := by
  obtain ⟨last, hchain, hends⟩ := Draft.walk_spec hwalk hstop
  refine ⟨fun c hc => (hchain.step hc).1, ?_⟩
  rintro c (rfl | rfl)
  · rw [hends.1]
    exact hends.2.1
  · rw [hends.1]
    exact hends.2.1

/-- A property of drafts that stays when values are bound where the variable has none, when a phi is made
there that does not have just one predecessor, and when a phi gets an operand that `may` have one. New
phis may. The searches go through blocks that are `within` some region, together with their
predecessors. -/
structure Upkeep (within : Block → Prop) (may : OpenPhi → Prop) (I : Draft → Prop) : Prop where
  back : ∀ {d c q}, I d → within c → q ∈ d.builder.preds c → within q
  bindAll : ∀ {d x blocks v}, I d → (∀ c ∈ blocks, d.known.value? x c = none) →
    I (d.bindAll x blocks v)
  settle : ∀ {d x b ty waiting blocks}, I d → (∀ c ∈ blocks, d.known.value? x c = none) →
    b ∈ blocks → within b → (∀ q, ¬ d.StepsBack b q) → d.known.type? x = some ty →
    (∀ p ∈ waiting, p = ⟨x, b, ⟨d.builder.valueCount⟩⟩) → I (d.settle x b ty waiting blocks)
  made : ∀ {d x b}, I d → within b → may ⟨x, b, ⟨d.builder.valueCount⟩⟩
  place : ∀ {p}, may p → within p.block
  addIncoming : ∀ {d q v p}, I d → may p → I (d.addIncoming p.phi q v)

namespace Upkeep

variable {within : Block → Prop} {may : OpenPhi → Prop} {I : Draft → Prop} {d : Draft}
  (h : Upkeep within may I)
include h

/-- Phis that need operands now are new. -/
theorem resolve (hd : I d) (x : SymbolId) {b : Block} (hb : within b) :
    Leaves (resolve x b) d I fun r => ∀ p ∈ r.2, may p := by
  have hlast : ∀ {gone last}, d.Chain x b gone last → within last :=
    fun hchain => (hchain.all (fun _ _ hc _ _ hq => h.back hd hc hq) hb).1
  unfold Leaves
  rw [on_resolve]
  rcases hwalk : d.walkFrom x b with ⟨gone, v | stop | stop | _⟩
  case bound =>
    refine ⟨h.bindAll hd (unbound_of_walk hwalk nofun).1, fun r hr => ?_⟩
    cases hr
    simp
  case unsealed =>
    -- The phi waits, so it is none of those that need operands now.
    obtain ⟨hgone, hunbound⟩ := unbound_of_walk hwalk nofun
    obtain ⟨last, hchain, rfl, -, hopen⟩ := Draft.walk_spec hwalk nofun
    dsimp only
    cases htype : d.known.type? x with
    | none => exact ⟨hd, nofun⟩
    | some ty =>
      refine ⟨h.settle hd (fun c hc => ?_) (by simp) (hlast hchain) ?_ htype (by simp),
        fun r hr => ?_⟩
      · rcases List.mem_append.1 hc with hc | hc
        · exact hgone c hc
        · exact hunbound c (.inl (by rw [List.mem_singleton.1 hc]))
      · rintro q ⟨hsealed, -⟩
        rw [hopen] at hsealed
        cases hsealed
      · cases hr
        simp
  case merge =>
    obtain ⟨hgone, hunbound⟩ := unbound_of_walk hwalk nofun
    obtain ⟨last, hchain, rfl, -, -, hmerge⟩ := Draft.walk_spec hwalk nofun
    dsimp only
    cases htype : d.known.type? x with
    | none => exact ⟨hd, nofun⟩
    | some ty =>
      refine ⟨h.settle hd (fun c hc => ?_) (by simp) (hlast hchain) ?_ htype (by simp),
        fun r hr => ?_⟩
      · rcases List.mem_cons.1 hc with rfl | hc
        · exact hunbound c (.inr rfl)
        · exact hgone c hc
      · exact fun q hback => hmerge q hback.2
      · cases hr
        simpa using h.made hd (hlast hchain)
  case endless => exact ⟨hd, nofun⟩

theorem operands {p : OpenPhi} {preds : List Block} {later : List OpenPhi} (hd : I d)
    (hpreds : ∀ q ∈ preds, within q) (hmay : ∀ o ∈ p :: later, may o) :
    Leaves (preds.foldlM (fillFrom p) later) d I fun later' => ∀ o ∈ later', may o := by
  induction preds generalizing d later with
  | nil => exact leaves_pure hd fun o ho => hmay o (List.mem_cons_of_mem _ ho)
  | cons q rest ih =>
    rw [List.foldlM_cons]
    have hfirst : Leaves (fillFrom p later q) d I fun later' => ∀ o ∈ later', may o := by
      refine (h.resolve hd p.var (hpreds q (by simp))).bind ?_
      rintro ⟨v, made⟩ d₁ hmade hd₁
      refine ⟨h.addIncoming hd₁ (hmay p (by simp)), fun later' hlater => ?_⟩
      cases hlater
      intro o ho
      rcases List.mem_append.1 ho with ho | ho
      · exact hmade o ho
      · exact hmay o (List.mem_cons_of_mem _ ho)
    refine hfirst.bind fun mid d₁ hmid hd₁ =>
      ih hd₁ (fun q hq => hpreds q (List.mem_cons_of_mem _ hq)) fun o ho => ?_
    rcases List.mem_cons.1 ho with rfl | ho
    · exact hmay o (by simp)
    · exact hmid o ho

theorem fill {rounds : Nat} {pending : List OpenPhi} (hd : I d) (hmay : ∀ p ∈ pending, may p) :
    Leaves (fill rounds pending) d I fun _ => True := by
  induction rounds generalizing d pending with
  | zero =>
    cases pending with
    | nil => exact leaves_pure hd trivial
    | cons p rest => exact leaves_throw hd
  | succ rounds ih =>
    cases pending with
    | nil => exact leaves_pure hd trivial
    | cons p rest =>
      have hpreds : ∀ q ∈ d.builder.preds p.block, within q :=
        fun q => h.back hd (h.place (hmay p (by simp)))
      exact leaves_get ((h.operands hd hpreds hmay).bind fun _ _ hlater hd₁ => ih hd₁ hlater)

theorem fillAll {pending : List OpenPhi} (hd : I d) (hmay : ∀ p ∈ pending, may p) :
    I ((fillAll pending).on d).2 :=
  (leaves_get (h.fill hd hmay) : Leaves (Drafting.fillAll pending) d I fun _ => True).1

/-- Only new phis get operands in a read. -/
theorem read (hd : I d) (x : SymbolId) {b : Block} (hb : within b) : I ((read x b).on d).2 := by
  have hread : Leaves (Drafting.read x b) d I fun _ => True := by
    refine (h.resolve hd x hb).bind ?_
    rintro ⟨v, made⟩ d₁ hmade hd₁
    have hfill : Leaves (Drafting.fillAll made) d₁ I fun _ => True := leaves_get (h.fill hd₁ hmade)
    exact hfill.bind fun _ _ _ hd₂ => leaves_pure hd₂ trivial
  exact hread.1

end Upkeep

end Drafting

end Abacus.Lowering
