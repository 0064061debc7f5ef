import Mathlib.Data.List.Forall2
import Mathlib.Logic.Relator
import Abacus.Lowering.Fault
import Abacus.Proofs.Variables.Search

/-!
# Drafts that differ in the identities of symbols

Where a body is lowered, its symbols get the next identities that are free, and these depend on what
has been lowered before. A `Pairing` says which symbols of two drafts are the same apart from that.
The graph that is built does not depend on it: work on two paired drafts *agrees*, so that the graphs
stay the same.

* `Variables.Paired`, `Draft.Paired` — what is known is the same for paired symbols;
* `Agree` — two computations have related results, or fail for the same cause;
* `Drafting.Agrees` — so does work on any two paired drafts, which are paired again afterwards;
* `Drafting.agrees_read`, `Drafting.agrees_sealBlock` — reading variables and sealing blocks;
* `Drafting.agrees_checkedDiv`, `Drafting.agrees_invoke` — work in which no variables occur.
-/

namespace Abacus.Lowering

open Abacus.Flow (Value Block Ty Inst Terminator Builder)

/-! ## Paired symbols -/

/-- Which symbols of two runs are the same but for their identities, and the names of the functions
that both may call. No symbol has two partners. -/
structure Pairing where
  pairs : SymbolId → SymbolId → Prop
  unique : Relator.BiUnique pairs
  called : String → Prop

/-- Symbols that are new, where `m` and `n` are the next identities. -/
def Pairing.fresh (m n : Nat) (called : String → Prop) : Pairing where
  pairs x x' := ∃ i, x = ⟨m + i⟩ ∧ x' = ⟨n + i⟩
  called := called
  unique := by
    constructor <;> rintro ⟨x⟩ ⟨y⟩ ⟨z⟩ ⟨i, hx, hz⟩ ⟨j, hy, hz'⟩ <;> grind

/-- The open phis stand for paired symbols. -/
structure OpenPhi.Paired (π : Pairing) (p p' : OpenPhi) : Prop where
  var : π.pairs p.var p'.var
  block : p.block = p'.block
  phi : p.phi = p'.phi

/-- The same is known about paired symbols. -/
structure Variables.Paired (π : Pairing) (known known' : Variables) : Prop where
  value : ∀ {x x'}, π.pairs x x' → ∀ b, known.value? x b = known'.value? x' b
  type : ∀ {x x'}, π.pairs x x' → known.type? x = known'.type? x'
  isSealed : ∀ b, known.isSealed b = known'.isSealed b
  incomplete : List.Forall₂ (OpenPhi.Paired π) known.incomplete known'.incomplete

/-- The graphs are the same, and so is what is known about paired symbols. -/
structure Draft.Paired (π : Pairing) (d d' : Draft) : Prop where
  builder : d.builder = d'.builder
  known : d.known.Paired π d'.known

variable {π : Pairing} {x x' y y' : SymbolId}

namespace Variables

variable {known known' : Variables}

theorem paired_empty (π : Pairing) : Paired π empty empty := ⟨by simp [value?, empty],
  by simp [type?, empty], fun _ => rfl, .nil⟩

namespace Paired

theorem write (h : known.Paired π known') (hx : π.pairs x x') (b : Block) (v : Value) :
    (known.write x b v).Paired π (known'.write x' b v) where
  value {y y'} hy c := by
    -- Paired symbols are written at the same sites.
    have hsite : (⟨x, b⟩ : Site) = ⟨y, c⟩ ↔ (⟨x', b⟩ : Site) = ⟨y', c⟩ := by
      have heq : x = y ↔ x' = y' := Relator.rel_eq π.unique hx hy
      simp [heq]
    by_cases hsame : (⟨x, b⟩ : Site) = ⟨y, c⟩
    · obtain ⟨rfl, rfl⟩ := Site.mk.inj hsame
      obtain ⟨rfl, -⟩ := Site.mk.inj (hsite.1 hsame)
      rw [value?_write, value?_write]
    · rw [value?_write_of_ne _ _ hsame, value?_write_of_ne _ _ (mt hsite.2 hsame)]
      exact h.value hy c
  type := h.type
  isSealed := h.isSealed
  incomplete := h.incomplete

theorem writeAll (h : known.Paired π known') (hx : π.pairs x x') (blocks : List Block) (v : Value) :
    (known.writeAll x blocks v).Paired π (known'.writeAll x' blocks v) := by
  induction blocks generalizing known known' with
  | nil => exact h
  | cons b blocks ih => exact ih (h.write hx b v)

theorem declare (h : known.Paired π known') (hx : π.pairs x x') (ty : Ty) :
    (known.declare x ty).Paired π (known'.declare x' ty) where
  value := h.value
  type {y y'} hy := by
    have heq : x = y ↔ x' = y' := Relator.rel_eq π.unique hx hy
    have htype := h.type hy
    unfold type? at htype
    simp only [type?, Variables.declare, Std.TreeMap.getElem?_insertIfNew]
    grind
  isSealed := h.isSealed
  incomplete := h.incomplete

theorem own (h : known.Paired π known') (phi : Value) : (known.own phi x).Paired π (known'.own phi x') :=
  ⟨h.value, h.type, h.isSealed, h.incomplete⟩

theorem incompleteOf (h : known.Paired π known') (b : Block) :
    List.Forall₂ (OpenPhi.Paired π) (known.incompleteOf b) (known'.incompleteOf b) :=
  List.rel_filter (fun p p' hp => by simp [hp.block]) h.incomplete

/-- The same complaint is made where blocks have not been sealed. -/
theorem finish (h : known.Paired π known') : known.finish = known'.finish := by
  have hblocks : known.incomplete.map (·.block.index) = known'.incomplete.map (·.block.index) := by
    have hincomplete := h.incomplete
    generalize known.incomplete = ps, known'.incomplete = ps' at hincomplete
    induction hincomplete with
    | nil => rfl
    | cons hp _ ih => rw [List.map_cons, List.map_cons, ih, hp.block]
  unfold Variables.finish
  rw [hblocks]
  split
  · rfl
  · rw [(h.incompleteOf _).length_eq]

end Paired

end Variables

/-! ## Computations that agree -/

/-- The causes are the same, or both are defects: what is said of those may name identities. -/
def Cause.Alike (c c' : Cause) : Prop :=
  c = c' ∨ (∃ d, c = .internal d) ∧ ∃ d, c' = .internal d

theorem Cause.Alike.common {c c' d : Cause} (h : c.Alike d) (h' : c'.Alike d) : c.Alike c' := by
  rcases h with rfl | ⟨hc, hd⟩
  · rcases h' with rfl | ⟨hc', hc⟩
    · exact .inl rfl
    · exact .inr ⟨hc, hc'⟩
  · rcases h' with rfl | ⟨hc', -⟩
    · exact .inr ⟨hc, hd⟩
    · exact .inr ⟨hc, hc'⟩

/-- Two computations have related results, or both fail, for causes that are alike. -/
inductive Agree {α β : Type} (R : α → β → Prop) :
    Except LoweringError α → Except LoweringError β → Prop
  | ok {a b} : R a b → Agree R (.ok a) (.ok b)
  | error {e e' : LoweringError} : e.cause.Alike e'.cause → Agree R (.error e) (.error e')

section

variable {α β γ δ : Type} {R : α → β → Prop} {S : γ → δ → Prop}
  {x : Except LoweringError α} {y : Except LoweringError β}
  {f : α → Except LoweringError γ} {g : β → Except LoweringError δ}

theorem agree_same {e : LoweringError} : Agree R (.error e) (.error e) := .error (.inl rfl)

theorem Agree.imp {R' : α → β → Prop} (h : Agree R x y) (himp : ∀ a b, R a b → R' a b) :
    Agree R' x y := by
  cases h with
  | ok h => exact .ok (himp _ _ h)
  | error h => exact .error h

/-- Two computations that agree with a third one agree with each other. -/
theorem Agree.common {T : δ → β → Prop} {w : Except LoweringError δ} (h : Agree R x y)
    (h' : Agree T w y) : Agree (fun a d => ∃ b, R a b ∧ T d b) x w := by
  cases h with
  | ok hab =>
    cases h' with
    | ok hdb => exact .ok ⟨_, hab, hdb⟩
  | error he =>
    cases h' with
    | error he' => exact .error (he.common he')

theorem Agree.bind (h : Agree R x y) (hnext : ∀ a b, R a b → Agree S (f a) (g b)) :
    Agree S (x >>= f) (y >>= g) := by
  cases h with
  | ok h => exact hnext _ _ h
  | error h => exact .error h

/-- Where the second computation fails for no defect, both have related results or the same cause. -/
theorem Agree.ok_or_error (h : Agree R x y)
    (hdefect : ∀ e', y = .error e' → ∀ d, e'.cause ≠ .internal d) :
    (∃ a b, x = .ok a ∧ y = .ok b ∧ R a b) ∨
      ∃ e e', x = .error e ∧ y = .error e' ∧ e.cause = e'.cause := by
  cases h with
  | ok h => exact .inl ⟨_, _, rfl, rfl, h⟩
  | error h =>
    have hsame := h.resolve_right fun ⟨_, d, hd⟩ => hdefect _ rfl d hd
    exact .inr ⟨_, _, rfl, rfl, hsame⟩

/-- The related results are those of the two computations. -/
theorem Agree.traced (h : Agree R x y) : Agree (fun a b => R a b ∧ x = .ok a ∧ y = .ok b) x y := by
  cases h with
  | ok h => exact .ok ⟨h, rfl, rfl⟩
  | error h => exact .error h

end

namespace Drafting

variable {α β γ δ : Type} {R : α → β → Prop} {S : γ → δ → Prop}

/-- What work on a draft comes to: its result and the draft after it, if it does not fail. -/
def outcome (work : Drafting α) (d : Draft) : Except LoweringError (α × Draft) :=
  match work.on d with
  | (.ok a, after) => .ok (a, after)
  | (.error e, _) => .error e

theorem outcome_bind (work : Drafting α) (next : α → Drafting β) (d : Draft) :
    (work >>= next).outcome d = work.outcome d >>= fun r => (next r.1).outcome r.2 := by
  unfold outcome
  rw [on_bind]
  rcases work.on d with ⟨e | a, after⟩ <;> rfl

/-- On any two paired drafts the two pieces of work have related results, and the drafts are paired
afterwards, or both fail, for causes that are alike. -/
def Agrees (π : Pairing) (R : α → β → Prop) (work : Drafting α) (work' : Drafting β) : Prop :=
  ∀ d d', d.Paired π d' →
    Agree (fun r r' => R r.1 r'.1 ∧ r.2.Paired π r'.2) (work.outcome d) (work'.outcome d')

theorem Agrees.bind {work : Drafting α} {work' : Drafting β} {f : α → Drafting γ}
    {g : β → Drafting δ} (h : Agrees π R work work')
    (hnext : ∀ a b, R a b → Agrees π S (f a) (g b)) : Agrees π S (work >>= f) (work' >>= g) := by
  intro d d' hd
  rw [outcome_bind, outcome_bind]
  exact (h d d' hd).bind fun r r' hr => hnext _ _ hr.1 _ _ hr.2

/-- The results of the first work are the same. -/
theorem Agrees.then {work work' : Drafting α} {f : α → Drafting γ} {g : α → Drafting δ}
    (h : Agrees π Eq work work') (hnext : ∀ a, Agrees π S (f a) (g a)) :
    Agrees π S (work >>= f) (work' >>= g) :=
  h.bind fun a _ hab => hab ▸ hnext a

theorem agrees_pure {a : α} {b : β} (h : R a b) : Agrees π R (pure a) (pure b) :=
  fun _ _ hd => .ok ⟨h, hd⟩

theorem agrees_throw {e e' : LoweringError} (h : e.cause.Alike e'.cause) :
    Agrees π R (throw e) (throw e') := fun _ _ _ => .error h

theorem agrees_get {f : Draft → Drafting γ} {g : Draft → Drafting δ}
    (h : ∀ d d', d.Paired π d' → Agrees π S (f d) (g d')) : Agrees π S (get >>= f) (get >>= g) := by
  intro d d' hd
  rw [outcome_bind, outcome_bind]
  exact h d d' hd d d' hd

theorem agrees_build (change : Builder → α × Builder) : Agrees π Eq (build change) (build change) :=
  fun _ _ hd => .ok ⟨by rw [hd.builder], ⟨by rw [hd.builder], hd.known⟩⟩

theorem agrees_rebuild (change : Builder → Builder) :
    Agrees π Eq (rebuild change) (rebuild change) := agrees_build _

theorem agrees_note {change change' : Variables → Variables}
    (h : ∀ {known known'}, known.Paired π known' → (change known).Paired π (change' known')) :
    Agrees π Eq (note change) (note change') := fun _ _ hd => .ok ⟨rfl, hd.builder, h hd.known⟩

theorem agrees_emit (inst : Inst) (ty : Ty) : Agrees π Eq (emit inst ty) (emit inst ty) :=
  agrees_build _

theorem agrees_newBlock (label : String) : Agrees π Eq (newBlock label) (newBlock label) :=
  agrees_build _

theorem agrees_setCurrent (b : Block) : Agrees π Eq (setCurrent b) (setCurrent b) :=
  agrees_rebuild _

theorem agrees_terminate (t : Terminator) : Agrees π Eq (terminate t) (terminate t) :=
  agrees_rebuild _

theorem agrees_currentBlock : Agrees π Eq currentBlock currentBlock :=
  agrees_get fun _ _ hd => agrees_pure (by rw [hd.builder])

theorem agrees_typeOf (v : Value) : Agrees π Eq (typeOf v) (typeOf v) :=
  agrees_get fun _ _ hd => agrees_pure (by rw [hd.builder])

theorem agrees_write (hx : π.pairs x x') (b : Block) (v : Value) :
    Agrees π Eq (write x b v) (write x' b v) := agrees_note fun h => h.write hx b v

theorem agrees_declare (hx : π.pairs x x') (ty : Ty) : Agrees π Eq (declare x ty) (declare x' ty) :=
  agrees_note fun h => h.declare hx ty

theorem agrees_foldlM {f : α → γ → Drafting α} {g : β → γ → Drafting β}
    (h : ∀ {a b} c, R a b → Agrees π R (f a c) (g b c)) (cs : List γ) {a : α} {b : β}
    (hab : R a b) : Agrees π R (cs.foldlM f a) (cs.foldlM g b) := by
  induction cs generalizing a b with
  | nil => exact agrees_pure hab
  | cons c cs ih =>
    rw [List.foldlM_cons, List.foldlM_cons]
    exact (h c hab).bind fun _ _ => ih

/-! ## Reading variables -/

/-- Paired symbols are looked for in the same blocks. -/
theorem walk_eq {d d' : Draft} (hd : d.Paired π d') (hx : π.pairs x x') (steps : Nat) (b : Block) :
    d.walk x steps b = d'.walk x' steps b := by
  induction steps generalizing b with
  | zero => rfl
  | succ steps ih =>
    unfold Draft.walk
    rw [hd.known.value hx, hd.known.isSealed, hd.builder]
    grind

theorem agrees_newPhi (hx : π.pairs x x') (b : Block) :
    Agrees π Eq (newPhi x b) (newPhi x' b) := by
  refine agrees_get fun d d' hd => ?_
  rw [hd.known.type hx]
  cases d'.known.type? x' with
  | none => exact agrees_throw (.inr ⟨⟨_, rfl⟩, _, rfl⟩)
  | some ty =>
    refine (agrees_build _).then fun phi => ?_
    exact (agrees_note fun h => h.own phi).then fun _ => agrees_pure rfl

/-- The value is the same, and the phis that need operands are paired. -/
theorem agrees_resolve (hx : π.pairs x x') (b : Block) :
    Agrees π (fun r r' => r.1 = r'.1 ∧ List.Forall₂ (OpenPhi.Paired π) r.2 r'.2)
      (resolve x b) (resolve x' b) := by
  refine agrees_get fun d d' hd => ?_
  have hwalk : d.walkFrom x b = d'.walkFrom x' b := by
    unfold Draft.walkFrom
    rw [walk_eq hd hx, hd.builder]
  rw [hwalk]
  rcases d'.walkFrom x' b with ⟨gone, v | stop | stop | _⟩
  · exact (agrees_note fun h => h.writeAll hx gone v).then fun _ => agrees_pure ⟨rfl, .nil⟩
  · refine (agrees_newPhi hx stop).then fun phi => ?_
    refine Agrees.then (agrees_note fun h => ?_) fun _ =>
      (agrees_note fun h => h.writeAll hx _ phi).then fun _ => agrees_pure ⟨rfl, .nil⟩
    exact ⟨h.value, h.type, h.isSealed, List.rel_append h.incomplete (.cons ⟨hx, rfl, rfl⟩ .nil)⟩
  · refine (agrees_newPhi hx stop).then fun phi => ?_
    exact (agrees_note fun h => h.writeAll hx _ phi).then fun _ =>
      agrees_pure ⟨rfl, .cons ⟨hx, rfl, rfl⟩ .nil⟩
  · exact agrees_throw (.inr ⟨⟨_, rfl⟩, _, rfl⟩)

theorem agrees_fill {ps ps' : List OpenPhi} (hps : List.Forall₂ (OpenPhi.Paired π) ps ps')
    (rounds : Nat) : Agrees π Eq (fill rounds ps) (fill rounds ps') := by
  induction rounds generalizing ps ps' with
  | zero =>
    cases hps with
    | nil => exact agrees_pure rfl
    | cons => exact agrees_throw (.inr ⟨⟨_, rfl⟩, _, rfl⟩)
  | succ rounds ih =>
    cases hps with
    | nil => exact agrees_pure rfl
    | @cons p p' rest rest' hp hrest =>
      have hstep : ∀ {later later'} (pred : Block), List.Forall₂ (OpenPhi.Paired π) later later' →
          Agrees π (List.Forall₂ (OpenPhi.Paired π)) (fillFrom p later pred)
            (fillFrom p' later' pred) := by
        intro later later' pred hlater
        refine (agrees_resolve hp.var pred).bind ?_
        rintro ⟨v, made⟩ ⟨v', made'⟩ ⟨rfl, hmade⟩
        rw [hp.phi]
        exact (agrees_rebuild _).then fun _ => agrees_pure (List.rel_append hmade hlater)
      refine agrees_get fun d d' hd => ?_
      rw [hd.builder, hp.block]
      exact (agrees_foldlM hstep _ hrest).bind fun _ _ hlater => ih hlater

theorem agrees_fillAll {ps ps' : List OpenPhi} (hps : List.Forall₂ (OpenPhi.Paired π) ps ps') :
    Agrees π Eq (fillAll ps) (fillAll ps') := by
  refine agrees_get fun d d' hd => ?_
  rw [hd.builder, hps.length_eq]
  exact agrees_fill hps _

theorem agrees_read (hx : π.pairs x x') (b : Block) : Agrees π Eq (read x b) (read x' b) := by
  refine (agrees_resolve hx b).bind ?_
  rintro ⟨v, made⟩ ⟨v', made'⟩ ⟨rfl, hmade⟩
  exact (agrees_fillAll hmade).then fun _ => agrees_pure rfl

theorem agrees_sealBlock (b : Block) : Agrees π Eq (sealBlock b) (sealBlock b) := by
  -- The phis of the block are taken off the list before they get their operands.
  have hseal : ∀ {ps ps'}, List.Forall₂ (OpenPhi.Paired π) ps ps' → Agrees π Eq
      (do
        note fun known => { known with incomplete := known.incomplete.filter (·.block ≠ b) }
        fillAll ps.reverse
        note fun known => { known with sealedBlocks := known.sealedBlocks.insert b })
      (do
        note fun known => { known with incomplete := known.incomplete.filter (·.block ≠ b) }
        fillAll ps'.reverse
        note fun known => { known with sealedBlocks := known.sealedBlocks.insert b }) := by
    intro ps ps' hps
    refine Agrees.then (agrees_note fun h => ⟨h.value, h.type, h.isSealed, ?_⟩) fun _ => ?_
    · exact List.rel_filter (fun p p' hp => by simp [hp.block]) h.incomplete
    refine (agrees_fillAll (List.rel_reverse hps)).then fun _ =>
      agrees_note fun h => ⟨h.value, h.type, fun c => ?_, h.incomplete⟩
    have hsealed := h.isSealed c
    simp only [Variables.isSealed, Std.TreeSet.contains_insert] at hsealed ⊢
    rw [hsealed]
  refine agrees_get fun d d' hd => ?_
  dsimp only
  rw [hd.known.isSealed]
  split
  · exact (agrees_throw (.inl rfl)).then fun _ => hseal (hd.known.incompleteOf b)
  · exact hseal (hd.known.incompleteOf b)

/-! ## Work without variables -/

theorem agrees_checkedDiv (config : FaultConfig) (lhs rhs : Value) :
    Agrees π Eq (checkedDiv config lhs rhs) (checkedDiv config lhs rhs) := by
  refine agrees_currentBlock.then fun check => ?_
  refine (agrees_newBlock _).then fun zeroBlock => (agrees_newBlock _).then fun okay => ?_
  refine (agrees_emit _ _).then fun zero => (agrees_emit _ _).then fun isZero => ?_
  refine (agrees_terminate _).then fun _ => ?_
  refine (agrees_sealBlock _).then fun _ => (agrees_sealBlock _).then fun _ => ?_
  refine (agrees_setCurrent _).then fun _ => (agrees_emit _ _).then fun fault => ?_
  refine (agrees_terminate _).then fun _ => (agrees_setCurrent _).then fun _ => ?_
  exact (agrees_emit _ _).then fun quotient => agrees_pure rfl

theorem agrees_newInvokeSites : Agrees π Eq newInvokeSites newInvokeSites := by
  refine (agrees_newBlock _).then fun normal => (agrees_newBlock _).then fun landing => ?_
  refine (agrees_newBlock _).then fun caught => (agrees_newBlock _).then fun faulted => ?_
  refine (agrees_newBlock _).then fun unexpected => (agrees_newBlock _).then fun cleanup => ?_
  exact agrees_pure rfl

theorem agrees_fillLanding (config : FaultConfig) (sites : InvokeSites) :
    Agrees π Eq (fillLanding config sites) (fillLanding config sites) := by
  refine (agrees_setCurrent _).then fun _ => (agrees_emit _ _).then fun pad => ?_
  refine (agrees_emit _ _).then fun selector => (agrees_emit _ _).then fun typeId => ?_
  refine (agrees_emit _ _).then fun isOurs => (agrees_terminate _).then fun _ => ?_
  refine (agrees_sealBlock _).then fun _ => (agrees_sealBlock _).then fun _ => ?_
  exact agrees_pure rfl

theorem agrees_fillCaught (sites : InvokeSites) (pad : Value) :
    Agrees π Eq (fillCaught sites pad) (fillCaught sites pad) := by
  refine (agrees_setCurrent _).then fun _ => (agrees_emit _ _).then fun code => ?_
  refine (agrees_emit _ _).then fun _ => (agrees_emit _ _).then fun _ => ?_
  exact (agrees_emit _ _).then fun zero => agrees_terminate _

theorem agrees_fillFaulted (sites : InvokeSites) (pad selector : Value) :
    Agrees π Eq (fillFaulted sites pad selector) (fillFaulted sites pad selector) := by
  refine (agrees_setCurrent _).then fun _ => (agrees_emit _ _).then fun zero => ?_
  refine (agrees_emit _ _).then fun isForeign => (agrees_terminate _).then fun _ => ?_
  refine (agrees_sealBlock _).then fun _ => (agrees_sealBlock _).then fun _ => ?_
  refine (agrees_setCurrent _).then fun _ => (agrees_emit _ _).then fun _ => ?_
  refine (agrees_terminate _).then fun _ => (agrees_setCurrent _).then fun _ => ?_
  exact agrees_terminate _

theorem agrees_invoke (config : FaultConfig) (callee : String) (arguments : List Value) :
    Agrees π Eq (invoke config callee arguments) (invoke config callee arguments) := by
  refine agrees_newInvokeSites.then fun sites => (agrees_build _).then fun result => ?_
  refine (agrees_sealBlock _).then fun _ => (agrees_sealBlock _).then fun _ => ?_
  refine (agrees_fillLanding config sites).then fun landed => ?_
  refine (agrees_fillCaught sites _).then fun _ => (agrees_fillFaulted sites _ _).then fun _ => ?_
  exact (agrees_setCurrent _).then fun _ => agrees_pure rfl

end Drafting

end Abacus.Lowering
