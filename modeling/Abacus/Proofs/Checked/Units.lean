import Abacus.Proofs.Checked.Bodies
import Abacus.Proofs.Lowering.Linking

/-!
# Lowering keeps the rules

A function is opened with a sealed entry. Where its body has gone on from there, every block but the
current one is sealed and has an end, so once the body is ended the function can be closed. Function by
function this gives what holds of a unit: however complaints read, none is ever made.

* `View.start` — the view of a function that has been opened;
* `lowerFunction_meets`, `lowerStatements_meets` — functions;
* `Checked.lowerUnit_eq` — units.
-/

namespace Abacus.Lowering

open Abacus.Flow (Value Block Ty Terminator Builder Function)

variable (checks : Checked.Checks) {v : View} {s : State} {symbols : SymbolTable}
  {known : List Export}

/-! ## Opening and closing -/

/-- What can be seen of a function that has been opened. -/
def View.start : View := ⟨1, 0, fun _ => false, fun i => i == 0, fun _ => false⟩

theorem View.ready_start : View.start.Ready := by
  refine ⟨by decide, by decide, fun i hi => ⟨rfl, ?_⟩⟩
  have hne : i ≠ 0 := Nat.ne_of_gt hi
  simp [View.start, hne]

theorem shows_opened (name : String) (params : List Ty) (result : Ty) :
    Draft.Shows ⟨Builder.start name params result, Variables.empty⟩
      ⟨1, 0, fun _ => false, fun _ => false, fun _ => false⟩ [] := by
  refine ⟨?_, by simp [Variables.empty]⟩
  unfold Draft.view
  congr 1
  funext i
  unfold Builder.isTerminated Function.block
  cases i <;> rfl

/-- A function is opened without a block that has been sealed before. -/
theorem openFunction_meets (ht : symbols.Tabulates known) (name : String) (arity : Nat) :
    Checked.openFunction checks symbols name arity = openFunction symbols name arity ∧
      ∀ s, openFunction symbols name arity = .ok s →
        s.draft.Shows .start [] ∧ s.symbols.Known View.start.declared := by
  unfold Checked.openFunction openFunction
  cases hdefine : symbols.define name (.function arity false) with
  | error e => exact ⟨rfl, fun s h => by cases h⟩
  | ok defined =>
    obtain ⟨id, opened⟩ := defined
    have hseal : View.Meets (Checked.sealBlock checks Function.entry)
        (Drafting.sealBlock Function.entry)
        ⟨1, 0, fun _ => false, fun _ => false, fun _ => false⟩ fun _ v => v = .start :=
      View.meets_sealBlock rfl
    obtain ⟨heq, hpost⟩ := Lower.meets_onDraft hseal
      ⟨opened, ⟨Builder.start name (List.replicate arity .int) .int, Variables.empty⟩, false⟩
      (shows_opened _ _ _) rfl
    constructor
    · show (Lower.onDraft (Checked.sealBlock checks Function.entry) _ >>= _) = _
      rw [heq]
      rfl
    · intro s hrun
      obtain ⟨_, hopened, hrun⟩ := except_bind_ok hrun
      cases hopened
      obtain ⟨⟨⟨⟩, s'⟩, hwork, hs⟩ := except_bind_ok hrun
      cases hs
      obtain ⟨v, hshows, rfl, hsymbols⟩ := hpost _ _ hwork
      rw [hsymbols]
      refine ⟨hshows, fun e he hvar => ?_⟩
      exact absurd hvar ((ht.define (e := ⟨name, arity, false⟩) hdefine).global.functions e he)

theorem meets_endBody (result? : Option Value) (hv : v.Ready) :
    View.Meets (Checked.endBody checks result?) (endBody result?) v fun _ v' => v' = v.finish := by
  have hend : ∀ u, View.Meets (Checked.terminate checks (.ret u)) (Drafting.terminate (.ret u)) v
      fun _ v' => v' = v.finish :=
    fun u => View.meets_terminate hv.isOpen (by simp [Terminator.successors])
  intro d hd
  have hopen : ¬ d.builder.isTerminated d.builder.current = true := by
    have hended := hv.isOpen.2
    rw [← hd.view] at hended
    exact ne_true_of_eq_false hended
  apply (Drafting.meets_get d).bind
  rintro d₁ d₂ ⟨hsame, hsame'⟩
  subst hsame hsame'
  rw [if_neg hopen, if_neg hopen]
  cases result? with
  | none => exact ((View.meets_push _ _ hv.isOpen).step hend) d₂ hd
  | some u => exact hend u d₂ hd

/-- Where a body has gone on from the entry and has been ended, the function can be closed. -/
theorem holds_closing (h : View.start.Advances v) {d : Draft} (hd : d.view = v.finish) :
    Checked.Demand.closing.holds d = true := by
  have hcount : d.builder.blockCount = v.count := congrArg View.count hd
  have hended : ∀ i, d.builder.isTerminated ⟨i⟩ = v.finish.ended i :=
    fun i => congrFun (congrArg View.ended hd) i
  have hsealed : ∀ i, d.known.isSealed ⟨i⟩ = v.isSealed i :=
    fun i => congrFun (congrArg View.isSealed hd) i
  unfold Checked.Demand.holds Function.blockIds
  rw [show d.builder.function.blocks.size = v.count from hcount, List.all_eq_true]
  intro b hb
  obtain ⟨i, hi, rfl⟩ := List.mem_map.1 hb
  rw [hended, hsealed]
  have hlt := List.mem_range.1 hi
  have hsettled := h.settled i
  have hready := h.ready.isSealed
  have hstart : View.start.current = 0 ∧ View.start.count = 1 := ⟨rfl, rfl⟩
  grind

theorem meets_closing (result? : Option Value) (h : View.start.Advances v) :
    View.Meets (do Checked.endBody checks result?; Checked.demand checks .closing)
      (endBody result?) v fun _ v' => v' = v.finish := by
  intro d hd
  obtain ⟨heq, hpost⟩ := meets_endBody checks result? h.ready d hd
  refine ⟨?_, hpost⟩
  rw [Drafting.on_bind, heq]
  rcases hrun : (endBody result?).on d with ⟨e | ⟨⟨⟩⟩, d'⟩
  · rfl
  · obtain ⟨_, hd', rfl⟩ := hpost () d' hrun
    exact Drafting.on_demand (holds_closing h hd'.view)

theorem closeFunction_meets (options : Options) (name : String) (arity : Nat)
    (result? : Option Value) (hs : s.draft.Shows v []) (h : View.start.Advances v) :
    Checked.closeFunction checks options name arity result? s =
      closeFunction options name arity result? s := by
  have hend := (Lower.meets_onDraft (meets_closing checks result? h) s hs rfl).1
  unfold Checked.closeFunction closeFunction
  rw [hend]

/-! ## Functions -/

/-- From the entry on the parts of a body meet their demands. -/
theorem meets_body {α : Type} {checked plain : Lower α} (h : Lower.Conforms checked plain)
    (hs : s.draft.Shows .start []) (hknown : s.symbols.Known View.start.declared) :
    Lower.inScope checked s = Lower.inScope plain s ∧ ∀ a s', Lower.inScope plain s = .ok (a, s') →
      ∃ v, s'.draft.Shows v [] ∧ View.start.Advances v ∧ s'.symbols.Known v.declared := by
  obtain ⟨heq, hpost⟩ := h.inScope .start s.symbols View.ready_start hknown s hs rfl
  refine ⟨heq, fun a s' hrun => ?_⟩
  obtain ⟨v, hs', hadvances, hknown', -⟩ := hpost a s' hrun
  exact ⟨v, hs', hadvances, hknown'⟩

namespace Lower

theorem conforms_parameters (span : Span) (names : List String) (index : Nat) :
    Conforms (parameters span names index) (parameters span names index) := by
  induction names generalizing index with
  | nil => exact .pure ()
  | cons name rest ih =>
    intro v t hv ht
    apply meets_introduced hv ht ((meets_define name .var).located span)
    intro x t₁ ht₁ henclosing
    apply (meets_onDraft (View.meets_write x Function.entry ⟨index⟩ (v.declare x))).bind
    intro _ v₂ t₂ ⟨hview, hsame⟩
    subst hview hsame
    apply (ih (index + 1) (v.declare x) t₂ (hv.declare x) ht₁).mono
    intro _ v₃ t₃ ⟨hadvances, ht₃, henclosing₃⟩
    exact ⟨(View.Advances.declare hv x).trans hadvances, ht₃, henclosing₃.trans henclosing⟩

end Lower

theorem lowerFunction_meets (options : Options) (ht : symbols.Tabulates known) (span : Span)
    (name : String) (parameters : List String) (body : Tree) :
    Checked.lowerFunction checks options symbols span name parameters body =
      lowerFunction options symbols span name parameters body := by
  obtain ⟨hopen, hstart⟩ := openFunction_meets checks ht name parameters.length
  unfold Checked.lowerFunction lowerFunction
  dsimp only
  rw [hopen]
  apply except_bind_congr
  intro start hlocated
  obtain ⟨hs, hknown⟩ := hstart start (locateError_eq_ok hlocated)
  have hconforms : Lower.Conforms (do
        Lower.parameters span parameters 0
        Checked.items checks options.fault body)
      (do
        Lower.parameters span parameters 0
        Lower.items options.fault body) :=
    (Lower.conforms_parameters span parameters 0).bind fun _ =>
      Lower.conforms_items options.fault body
  obtain ⟨heq, hpost⟩ := meets_body hconforms hs hknown
  rw [heq]
  apply except_bind_congr
  intro ⟨⟨⟩, s⟩ hrun
  obtain ⟨v, hs', hadvances, -⟩ := hpost _ _ hrun
  dsimp only
  rw [closeFunction_meets checks options name parameters.length none hs' hadvances]

theorem lowerStatements_meets (options : Options) (ht : symbols.Tabulates known) (name : String)
    (items : List Tree) : Checked.lowerStatements checks options symbols name items =
      lowerStatements options symbols name items := by
  obtain ⟨hopen, hstart⟩ := openFunction_meets checks ht name 0
  unfold Checked.lowerStatements lowerStatements
  dsimp only
  rw [hopen]
  apply except_bind_congr
  intro start hlocated
  obtain ⟨hs, hknown⟩ := hstart start (locateError_eq_ok hlocated)
  have hconforms : Lower.Conforms (Checked.statementsValue checks options.fault items)
      (Lower.statementsValue options.fault items) := Lower.conforms_statementsValue options.fault items
  obtain ⟨heq, hpost⟩ := meets_body hconforms hs hknown
  rw [heq]
  apply except_bind_congr
  intro ⟨last?, s⟩ hrun
  obtain ⟨v, hs', hadvances, hknown'⟩ := hpost _ _ hrun
  cases last? with
  | none =>
    show (Checked.closeFunction checks options name 0 none s >>= _) = _
    rw [closeFunction_meets checks options name 0 none hs' hadvances]
    rfl
  | some u =>
    -- The value of the last expression is made an integer first.
    have hcoerce : Lower.Conforms (Checked.coerce checks u .int) (Lower.coerce u .int) :=
      Lower.conforms_coerce u .int
    obtain ⟨heq, hpost⟩ := hcoerce v s.symbols hadvances.ready hknown' s hs' rfl
    dsimp only
    rw [heq]
    cases hresult : Lower.coerce u .int s with
    | error e => rfl
    | ok p =>
      obtain ⟨v', hs'', hadvances', -⟩ := hpost p.1 p.2 hresult
      show (Checked.closeFunction checks options name 0 (some p.1) p.2 >>= _) = _
      rw [closeFunction_meets checks options name 0 (some p.1) hs'' (hadvances.trans hadvances')]
      rfl

/-! ## Units -/

theorem lowerItem_meets (options : Options) {progress : Progress}
    (ht : progress.symbols.Tabulates known) (item : Tree) :
    Checked.lowerItem checks options progress item = lowerItem options progress item := by
  obtain ⟨span, shape⟩ := item
  unfold Checked.lowerItem lowerItem
  cases shape
  case fnDef name parameters body =>
    dsimp only
    rw [lowerFunction_meets checks options ht]
  all_goals rfl

/-- Items, one after the other. Before each of them the table has the names of functions only. -/
theorem lowerItems_meets (options : Options) (items : List Tree) {progress : Progress}
    (ht : progress.symbols.Tabulates known) :
    items.foldlM (Checked.lowerItem checks options) progress =
      items.foldlM (lowerItem options) progress := by
  induction items generalizing known progress with
  | nil => rfl
  | cons item rest ih =>
    rw [List.foldlM_cons, List.foldlM_cons, lowerItem_meets checks options ht]
    apply except_bind_congr
    intro next hitem
    have hone : [item].foldlM (lowerItem options) progress = .ok next := by
      rw [List.foldlM_cons, hitem]
      rfl
    obtain ⟨fs, es, -, -, -, -, ht'⟩ := lowerItems_lowers ht hone
    exact ih ht'

/-- No demand goes unmet. Whatever the complaints, lowering with checks is lowering: for every unit, and
up to its first error. -/
theorem Checked.lowerUnit_eq (options : Options) (exports : List Export) (unitName : String)
    (tree? : Option Tree) : Checked.lowerUnit checks options exports unitName tree? =
      Lowering.lowerUnit options exports unitName tree? := by
  unfold Checked.lowerUnit Lowering.lowerUnit
  apply except_bind_congr
  intro symbols himport
  have ht := importExports_tabulates himport
  cases tree? with
  | none => rfl
  | some tree =>
    dsimp only
    rw [lowerItems_meets checks options tree.items ht]
    apply except_bind_congr
    intro progress hitems
    obtain ⟨fs, es, -, -, -, -, ht'⟩ := lowerItems_lowers ht hitems
    split
    · rfl
    · rw [lowerStatements_meets checks options ht']

end Abacus.Lowering
