import Abacus.Proofs.Variables.Search
import Abacus.Proofs.Flow.Paths

/-!
# Recorded work on a draft

The steps that build a function and resolve its variables come in any order. A `Recording` is a
draft together with what has been done to it: what happens in each block, in order, and which
variables have been resolved through which blocks.

* `Op`, `Recording.step`, `Recording.run` — the steps, and runs of them;
* `Recording.Loose` — what every caller keeps to: a block gets one end, a sealed block gets no
  further predecessor, a variable that is read has a type, and no variable is written in a block
  through which it has been resolved on behalf of another block;
* `Recording.Allowed` — the same, with the last rule also for a block that is its own predecessor
  (`SparesLoops`), and with the phis of searches left to searches (`SparesPhis`).
-/

namespace Abacus.Lowering

open Abacus.Flow (Value Block Ty Inst Terminator Builder BlockInfo ValueInfo)

/-! ## Events -/

/-- What happens in a block when control goes through it. -/
inductive Event where
  | inst (v : Value)
  | write (x : SymbolId) (v : Value)
  | read (x : SymbolId) (v : Value)
  deriving DecidableEq, Repr

namespace Event

/-- The value that an event gives to a variable. -/
def writeOf? (x : SymbolId) : Event → Option Value
  | write y v => if y = x then some v else none
  | inst _ | read .. => none

/-- The value that is new with an event. -/
def inst? : Event → Option Value
  | inst v => some v
  | write .. | read .. => none

/-- The value that a variable was given last. -/
def lastWrite? (x : SymbolId) (events : List Event) : Option Value :=
  (events.filterMap (writeOf? x)).getLast?

@[simp] theorem lastWrite?_nil (x : SymbolId) : lastWrite? x [] = none := rfl

@[simp] theorem lastWrite?_inst (x : SymbolId) (events : List Event) (v : Value) :
    lastWrite? x (events ++ [inst v]) = lastWrite? x events := by
  simp [lastWrite?, writeOf?]

@[simp] theorem lastWrite?_read (x y : SymbolId) (events : List Event) (v : Value) :
    lastWrite? x (events ++ [read y v]) = lastWrite? x events := by
  simp [lastWrite?, writeOf?]

theorem lastWrite?_write (x y : SymbolId) (events : List Event) (v : Value) :
    lastWrite? x (events ++ [write y v]) = if y = x then some v else lastWrite? x events := by
  by_cases h : y = x <;> simp [lastWrite?, writeOf?, h]

/-- A write that took place stands among the events. -/
theorem exists_of_lastWrite? {x : SymbolId} {events : List Event} {v : Value}
    (h : lastWrite? x events = some v) : ∃ front back, events = front ++ write x v :: back := by
  have hmem : v ∈ events.filterMap (writeOf? x) := List.mem_of_getLast? h
  obtain ⟨e, he, hv⟩ := List.mem_filterMap.1 hmem
  obtain ⟨front, back, rfl⟩ := List.append_of_mem he
  refine ⟨front, back, ?_⟩
  cases e with
  | write y u =>
      rw [writeOf?] at hv
      split at hv
      · next hy =>
        cases hv
        rw [hy]
      · cases hv
  | inst _ => cases hv
  | read _ _ => cases hv

/-- No write took place when the last one is missing. -/
theorem not_mem_of_lastWrite?_none {x : SymbolId} {events : List Event}
    (h : lastWrite? x events = none) (v : Value) : write x v ∉ events := by
  intro hmem
  have : v ∈ events.filterMap (writeOf? x) :=
    List.mem_filterMap.2 ⟨_, hmem, by simp [writeOf?]⟩
  rw [lastWrite?, List.getLast?_eq_none_iff] at h
  simp [h] at this

end Event

/-! ## Recordings -/

/-- A draft and what has been done to it. `script` is what happens in each block. `through x q c`
says that `x` has been resolved through `q` on behalf of its successor `c`. -/
structure Recording where
  draft : Draft
  script : Block → List Event
  through : SymbolId → Block → Block → Prop

/-- The steps. An `invoke` has a step of its own; `terminate` is for all other ends of a block. -/
inductive Op where
  | newBlock (label : String)
  | setCurrent (b : Block)
  | push (inst : Inst) (ty : Ty)
  | terminate (t : Terminator)
  | invoke (callee : String) (arguments : List Value) (result : Ty) (normal unwind : Block)
  | phi (b : Block) (ty : Ty)
  | addIncoming (phi : Value) (pred : Block) (v : Value)
  | declare (x : SymbolId) (ty : Ty)
  | write (x : SymbolId) (b : Block) (v : Value)
  | read (x : SymbolId) (b : Block)
  | sealBlock (b : Block)

namespace Draft

/-- The blocks that a search for a variable comes to: it goes on from sealed blocks in which the
variable has no value. -/
inductive Visits (d : Draft) (x : SymbolId) : Block → Block → Prop
  | start (b : Block) : Visits d x b b
  | back {b c q : Block} : Visits d x b c → d.known.value? x c = none →
      d.known.isSealed c = true → q ∈ d.builder.preds c → Visits d x b q

/-- A search from `b` resolves the variable through `q` on behalf of `c`. -/
def Resolves (d : Draft) (x : SymbolId) (b q c : Block) : Prop :=
  d.Visits x b c ∧ d.known.value? x c = none ∧ d.known.isSealed c = true ∧ q ∈ d.builder.preds c

/-- Sealing `b` resolves a variable through `q` on behalf of `c`. -/
def SealResolves (d : Draft) (b : Block) (x : SymbolId) (q c : Block) : Prop :=
  (∃ p ∈ d.known.incompleteOf b, p.var = x) ∧
    ((c = b ∧ q ∈ d.builder.preds b) ∨ ∃ start ∈ d.builder.preds b, d.Resolves x start q c)

end Draft

namespace Recording

/-- Adds an event to what happens in a block. -/
def happen (script : Block → List Event) (b : Block) (e : Event) : Block → List Event :=
  fun c => if c = b then script c ++ [e] else script c

@[simp] theorem happen_self (script : Block → List Event) (b : Block) (e : Event) :
    happen script b e b = script b ++ [e] := by
  simp [happen]

theorem happen_of_ne (script : Block → List Event) {b c : Block} (e : Event) (h : c ≠ b) :
    happen script b e c = script c := by
  simp [happen, h]

/-- The function under construction. -/
abbrev function (R : Recording) : Flow.Function := R.draft.builder.function

/-- One step. What a read or a sealing that fails has done to the draft stays done. -/
def step (R : Recording) : Op → Recording
  | .newBlock label =>
    { R with draft := { R.draft with builder := (R.draft.builder.newBlock label).2 } }
  | .setCurrent b => { R with draft := { R.draft with builder := R.draft.builder.setCurrent b } }
  | .push inst ty =>
    { R with
      draft := { R.draft with builder := (R.draft.builder.push inst ty).2 }
      script := happen R.script R.draft.builder.current (.inst (R.draft.builder.push inst ty).1) }
  | .terminate t =>
    { R with draft := { R.draft with builder := R.draft.builder.terminate t } }
  | .invoke callee arguments result normal unwind =>
    let (call, builder) := R.draft.builder.invoke callee arguments result normal unwind
    { R with
      draft := { R.draft with builder := builder }
      script := happen R.script R.draft.builder.current (.inst call) }
  | .phi b ty => { R with draft := { R.draft with builder := (R.draft.builder.phi b ty).2 } }
  | .addIncoming phi pred v =>
    { R with draft := { R.draft with builder := R.draft.builder.addIncoming phi pred v } }
  | .declare x ty => { R with draft := { R.draft with known := R.draft.known.declare x ty } }
  | .write x b v =>
    { R with
      draft := { R.draft with known := R.draft.known.write x b v }
      script := happen R.script b (.write x v) }
  | .read x b =>
    match (Drafting.read x b).on R.draft with
    | (.ok v, draft) =>
      { draft
        script := happen R.script b (.read x v)
        through := fun y q c => R.through y q c ∨ (y = x ∧ R.draft.Resolves x b q c) }
    | (.error _, draft) => { R with draft }
  | .sealBlock b =>
    match (Drafting.sealBlock b).on R.draft with
    | (.ok (), draft) =>
      { R with
        draft
        through := fun y q c => R.through y q c ∨ R.draft.SealResolves b y q c }
    | (.error _, draft) => { R with draft }

/-- Does the steps in order. -/
def run (R : Recording) (ops : List Op) : Recording := ops.foldl step R

/-- Nothing has been done yet, except that the entry reads the parameters. -/
def start (name : String) (params : List Ty) (result : Ty) : Recording where
  draft := ⟨Builder.start name params result, Variables.empty⟩
  script b := if b = Flow.Function.entry then (List.range params.length).map (.inst ⟨·⟩) else []
  through _ _ _ := False

/-- May the current block get an end that leads to the targets? -/
def MayEnd (R : Recording) (targets : List Block) : Prop :=
  R.draft.builder.isTerminated R.draft.builder.current = false ∧
    ∀ c ∈ targets, c.index < R.draft.builder.blockCount ∧ R.draft.known.isSealed c = false

/-- What every caller keeps to. -/
def Loose (R : Recording) : Op → Prop
  | .newBlock _ | .push .. | .addIncoming .. | .declare .. => True
  | .setCurrent b | .phi b _ | .sealBlock b => b.index < R.draft.builder.blockCount
  | .terminate t => R.MayEnd t.successors ∧ ∀ call normal unwind, t ≠ .invoke call normal unwind
  | .invoke _ _ _ normal unwind => R.MayEnd [normal, unwind]
  | .write x b _ => b.index < R.draft.builder.blockCount ∧ ∀ c, c ≠ b → ¬ R.through x b c
  | .read x b => b.index < R.draft.builder.blockCount ∧ (R.draft.known.type? x).isSome

/-- No variable is written in a block that is its own predecessor once it has been resolved through
the block on behalf of the block itself. -/
def SparesLoops (R : Recording) (op : Op) : Prop :=
  ∀ x b v, op = .write x b v → ¬ R.through x b b

/-- The phis that a search has made get their operands from searches only. -/
def SparesPhis (R : Recording) (op : Op) : Prop :=
  ∀ phi pred v, op = .addIncoming phi pred v → R.draft.known.owner? phi = none

/-- What callers have to keep to so that variables are resolved right. -/
def Allowed (R : Recording) (op : Op) : Prop := R.Loose op ∧ R.SparesLoops op ∧ R.SparesPhis op

/-- Each step of a run keeps to a rule, in the recording in which it is made. -/
def Keeps (rule : Recording → Op → Prop) (R : Recording) : List Op → Prop
  | [] => True
  | op :: rest => rule R op ∧ Keeps rule (R.step op) rest

theorem run_append (R : Recording) (ops ops' : List Op) :
    R.run (ops ++ ops') = (R.run ops).run ops' := by
  simp [run]

theorem keeps_append {rule : Recording → Op → Prop} {R : Recording} {ops ops' : List Op} :
    Keeps rule R (ops ++ ops') ↔ Keeps rule R ops ∧ Keeps rule (R.run ops) ops' := by
  induction ops generalizing R with
  | nil => simp [Keeps, run]
  | cons op rest ih =>
      simp only [List.cons_append, Keeps, ih, and_assoc]
      rfl

end Recording

end Abacus.Lowering
