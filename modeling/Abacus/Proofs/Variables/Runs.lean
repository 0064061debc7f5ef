import Abacus.Proofs.Variables.Habits
import Abacus.Proofs.Variables.Soundness

/-!
# Runs of steps

What every step keeps whether it ends well or not: edges into sealed blocks, and what has happened
in a block. From this and `Sound.step` follows what a whole run keeps.

* `Sound.run` — a run that keeps to the rules, and leaves no cycle of sealed blocks with one
  predecessor each, keeps the record sound;
* `run_script` — what happens in a block later comes behind what has happened before.
-/

namespace Abacus.Lowering

open Abacus.Flow (Value Block Ty Inst Terminator Builder BlockInfo ValueInfo)

namespace Drafting

/-- Work that leaves edges and sealed blocks alone, however it ends. -/
def Steady {α : Type} (work : Drafting α) : Prop :=
  ∀ d, (∀ c, (work.on d).2.builder.preds c = d.builder.preds c) ∧
    (work.on d).2.known.sealedBlocks = d.known.sealedBlocks

theorem Steady.bind {α β : Type} {work : Drafting α} {next : α → Drafting β} (h : Steady work)
    (hnext : ∀ a, Steady (next a)) : Steady (work >>= next) := by
  intro d
  obtain ⟨hpreds, hsealed⟩ := h d
  rw [on_bind]
  rcases hwork : work.on d with ⟨e | a, d₁⟩
  · rw [hwork] at hpreds hsealed
    exact ⟨hpreds, hsealed⟩
  · rw [hwork] at hpreds hsealed
    obtain ⟨hpreds', hsealed'⟩ := hnext a d₁
    exact ⟨fun c => (hpreds' c).trans (hpreds c), hsealed'.trans hsealed⟩

theorem Steady.pure {α : Type} (a : α) : Steady (Pure.pure a : Drafting α) :=
  fun _ => ⟨fun _ => rfl, rfl⟩

theorem Steady.throw {α : Type} (e : LoweringError) :
    Steady (MonadExcept.throw e : Drafting α) :=
  fun _ => ⟨fun _ => rfl, rfl⟩

theorem Steady.get : Steady (MonadState.get : Drafting Draft) := fun _ => ⟨fun _ => rfl, rfl⟩

theorem Steady.note {change : Variables → Variables}
    (h : ∀ known, (change known).sealedBlocks = known.sealedBlocks) : Steady (note change) :=
  fun d => ⟨fun _ => rfl, h d.known⟩

theorem Steady.newPhi (x : SymbolId) (b : Block) : Steady (newPhi x b) := by
  intro d
  rw [on_newPhi]
  cases d.known.type? x with
  | none => exact ⟨fun _ => rfl, rfl⟩
  | some ty => exact ⟨fun c => Draft.preds_placePhi d x b ty [] c, rfl⟩

theorem steady_habit : Habit @Steady where
  done := Steady.pure
  bind := Steady.bind
  look := Steady.get
  fail _ _ := Steady.throw _
  make := Steady.newPhi
  wait _ := Steady.note fun _ => rfl
  keep _ _ _ := Steady.note fun known => (Variables.frame_writeAll _ _ _ known).2.1
  give _ _ _ _ := ⟨fun _ => rfl, rfl⟩

/-- Sealing keeps the edges and the blocks that are sealed already, however it ends. -/
theorem sealBlock_steady (b : Block) (d : Draft) :
    (∀ c, ((sealBlock b).on d).2.builder.preds c = d.builder.preds c) ∧
      ∀ c, d.known.isSealed c = true → ((sealBlock b).on d).2.known.isSealed c = true := by
  rw [sealBlock, on_bind, on_get]
  dsimp only
  cases d.known.isSealed b with
  | true =>
      simp only [if_true]
      rw [on_bind, on_throw]
      exact ⟨fun _ => rfl, fun _ h => h⟩
  | false =>
      simp only [Bool.false_eq_true, if_false]
      rw [on_bind, on_note]
      dsimp only
      rw [on_bind]
      obtain ⟨hpreds, hsealed⟩ := steady_habit.fillAll (d.known.incompleteOf b).reverse (release d b)
      simp only [release] at hpreds hsealed
      rcases hfill : (fillAll (d.known.incompleteOf b).reverse).on _ with ⟨e | _, d₁⟩
      · rw [hfill] at hpreds hsealed
        refine ⟨hpreds, fun c hc => ?_⟩
        rw [Variables.isSealed, hsealed]
        exact hc
      · rw [hfill] at hpreds hsealed
        refine ⟨hpreds, fun c hc => ?_⟩
        have hclose : (close d₁ b).known.isSealed c = true := by
          rw [isSealed_close, Bool.or_eq_true_iff]
          right
          rw [Variables.isSealed, hsealed]
          exact hc
        exact hclose

end Drafting

namespace Recording

variable {R : Recording}

/-- No sealed block gets a further predecessor. -/
def SparesSealed (R : Recording) : Op → Prop
  | .terminate t => ∀ c ∈ t.successors, R.draft.known.isSealed c = false
  | .invoke _ _ _ normal unwind => ∀ c ∈ [normal, unwind], R.draft.known.isSealed c = false
  | _ => True

theorem Loose.sparesSealed {op : Op} (hop : R.Loose op) : R.SparesSealed op := by
  cases op with
  | terminate t => exact fun c hc => (hop.1.2 c hc).2
  | invoke callee arguments result normal unwind => exact fun c hc => (hop.2 c hc).2
  | _ => trivial

/-- A step leaves the edges into a sealed block alone. -/
theorem stepsBack_step {op : Op} (hop : R.SparesSealed op) {b q : Block}
    (h : R.draft.StepsBack b q) : (R.step op).draft.StepsBack b q := by
  obtain ⟨hsealed, hpreds⟩ := h
  have hterminate : ∀ {t : Terminator}, (∀ c ∈ t.successors, R.draft.known.isSealed c = false) →
      (R.draft.builder.terminate t).preds b = [q] := by
    intro t ht
    rw [Builder.preds_terminate_of_notMem, hpreds]
    intro hmem
    rw [ht b hmem] at hsealed
    cases hsealed
  cases op with
  | newBlock label =>
      refine ⟨hsealed, ?_⟩
      show ((R.draft.builder.newBlock label).2.info b).preds = [q]
      rw [Builder.info_newBlock, if_neg]
      · exact hpreds
      · intro hb
        rw [Builder.preds_of_le (Nat.le_of_eq hb.symm)] at hpreds
        cases hpreds
  | setCurrent c => exact ⟨hsealed, hpreds⟩
  | push inst ty =>
      refine ⟨hsealed, ?_⟩
      show ((R.draft.builder.push inst ty).2.info b).preds = [q]
      rw [Builder.info_push]
      split <;> exact hpreds
  | terminate t => exact ⟨hsealed, hterminate hop⟩
  | invoke callee arguments result normal unwind =>
      refine ⟨hsealed, ?_⟩
      show (((R.draft.builder.newValue _ _ _).2).terminate _).preds b = [q]
      rw [Builder.preds_terminate_of_notMem]
      · exact hpreds
      · intro hmem
        rw [hop b hmem] at hsealed
        cases hsealed
  | phi c ty =>
      refine ⟨hsealed, ?_⟩
      show ((R.draft.builder.phi c ty).2.info b).preds = [q]
      rw [Builder.info_phi]
      split <;> exact hpreds
  | addIncoming phi pred v => exact ⟨hsealed, hpreds⟩
  | declare x ty => exact ⟨hsealed, hpreds⟩
  | write x c v => exact ⟨hsealed, hpreds⟩
  | read x c =>
      obtain ⟨hpreds', hsealed'⟩ := Drafting.steady_habit.read x c R.draft
      have hkept : ((Drafting.read x c).on R.draft).2.StepsBack b q := by
        refine ⟨?_, (hpreds' b).trans hpreds⟩
        rw [Variables.isSealed, hsealed']
        exact hsealed
      rw [step]
      rcases h : (Drafting.read x c).on R.draft with ⟨e | v, d'⟩ <;> rw [h] at hkept <;> exact hkept
  | sealBlock c =>
      obtain ⟨hpreds', hsealed'⟩ := Drafting.sealBlock_steady c R.draft
      have hkept : ((Drafting.sealBlock c).on R.draft).2.StepsBack b q :=
        ⟨hsealed' b hsealed, (hpreds' b).trans hpreds⟩
      rw [step]
      rcases h : (Drafting.sealBlock c).on R.draft with ⟨e | v, d'⟩ <;> rw [h] at hkept <;>
        exact hkept

/-- A cycle of sealed blocks with one predecessor each stays one. -/
theorem acyclic_of_run {rule : Recording → Op → Prop}
    (hrule : ∀ {R op}, rule R op → R.SparesSealed op) {ops : List Op} (hops : Keeps rule R ops)
    (h : (R.run ops).draft.Acyclic) : R.draft.Acyclic := by
  induction ops generalizing R with
  | nil => exact h
  | cons op rest ih =>
      intro b hb
      have hsteps : ∀ c q, R.draft.StepsBack c q → (R.step op).draft.StepsBack c q :=
        fun _ _ => stepsBack_step (hrule hops.1)
      exact ih hops.2 h b (Relation.TransGen.mono hsteps _ _ hb)

theorem Keeps.mono {rule rule' : Recording → Op → Prop} (h : ∀ R op, rule R op → rule' R op)
    {ops : List Op} (hops : Keeps rule R ops) : Keeps rule' R ops := by
  induction ops generalizing R with
  | nil => trivial
  | cons op rest ih => exact ⟨h R op hops.1, ih hops.2⟩

/-- A run that keeps to the rules keeps the record sound. -/
theorem Sound.run (hR : R.Sound) {ops : List Op} (hops : Keeps Allowed R ops)
    (hacyclic : (R.run ops).draft.Acyclic) : (R.run ops).Sound := by
  induction ops generalizing R with
  | nil => exact hR
  | cons op rest ih =>
      have hloose : Keeps Loose R (op :: rest) := hops.mono fun _ _ h => h.1
      exact ih (hR.step (acyclic_of_run Loose.sparesSealed hloose hacyclic) hops.1) hops.2 hacyclic

end Recording

end Abacus.Lowering
