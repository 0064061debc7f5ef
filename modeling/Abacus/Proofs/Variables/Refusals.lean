import Abacus.Proofs.Variables.Stability

/-!
# When searches fail

A search writes long before it could fail: it binds what it has walked along, makes phis, and sealing a
block forgets the phis that have waited for it before they get their operands. Still, a search that fails
has changed nothing. Every phi that waits stands for a variable with a type, so filling phis never fails,
and a variable without a type makes a read fail at the end of its first walk, before anything is written.

* `Draft.Fillable` — edges come from blocks that exist, and waiting phis stand for variables with types;
* `Recording.Within`, `Recording.fillable_run` — every run of steps that goes to existing blocks only
  keeps this;
* `Goes.ok` — a search that comes to no variable without a type succeeds;
* `Recording.refusals_exact` — when reads and sealings fail, and that nothing has changed then.
-/

namespace Abacus.Lowering

open Abacus.Flow (Value Block Ty Inst Terminator Builder BlockInfo ValueInfo)

/-! ## Phis that can be filled -/

/-- The current block exists, edges come from blocks that exist, and the phis that wait stand for
variables with a type. -/
structure Draft.Fillable (d : Draft) : Prop extends d.builder.Rooted where
  typed : ∀ p ∈ d.known.incomplete, (d.known.type? p.var).isSome

namespace Draft.Fillable

variable {d : Draft}

/-- A type more. -/
theorem declare (h : d.Fillable) (x : SymbolId) (ty : Ty) :
    Draft.Fillable { d with known := d.known.declare x ty } where
  toRooted := h.toRooted
  typed p hp := by
    by_cases hx : p.var = x
    · rw [hx, Variables.type?_declare]
      rfl
    · show ((d.known.declare x ty).type? p.var).isSome
      have hne : x ≠ p.var := Ne.symm hx
      have hkept : (d.known.declare x ty).type? p.var = d.known.type? p.var := by
        simp [Variables.type?, Variables.declare, Std.TreeMap.getElem?_insertIfNew, hne]
      rw [hkept]
      exact h.typed p hp

/-- The phis of a block that is sealed next no longer wait. -/
theorem release (h : d.Fillable) (b : Block) : (Drafting.release d b).Fillable :=
  ⟨h.toRooted, fun p hp => h.typed p (List.mem_of_mem_filter hp)⟩

end Draft.Fillable

namespace Drafting

/-- Searches make phis for variables with a type only. -/
theorem fillable_upkeep : Upkeep (fun _ => True) (fun _ => True) Draft.Fillable where
  back _ _ _ := trivial
  bindAll {d x blocks v} h _ := by
    obtain ⟨hincomplete, -, htypes, -⟩ := Variables.frame_writeAll x v blocks d.known
    refine ⟨h.toRooted, fun p hp => ?_⟩
    have hp' : p ∈ d.known.incomplete := hincomplete ▸ hp
    show ((d.bindAll x blocks v).known.types[p.var]?).isSome
    rw [show (d.bindAll x blocks v).known.types = d.known.types from htypes]
    exact h.typed p hp'
  settle {d x b ty waiting blocks} h _ _ _ _ htype hwaiting := by
    have htypes : ∀ y, (d.settle x b ty waiting blocks).known.type? y = d.known.type? y :=
      fun y => Draft.type?_settle y
    refine ⟨⟨?_, fun {c q} hq => ?_⟩, fun p hp => ?_⟩
    · rw [Draft.blockCount_settle]
      exact h.current
    · rw [Draft.preds_settle] at hq
      rw [Draft.blockCount_settle]
      exact h.preds hq
    · rw [Draft.incomplete_settle] at hp
      rw [htypes]
      rcases List.mem_append.1 hp with hp | hp
      · exact h.typed p hp
      · rw [hwaiting p hp, htype]
        rfl
  made _ _ := trivial
  place _ := trivial
  addIncoming h _ := ⟨h.toRooted.addIncoming .., h.typed⟩

end Drafting

/-! ## Runs -/

namespace Recording

variable {R : Recording}

/-- Only blocks that exist become the current one. -/
def Within (R : Recording) : Op → Prop
  | .setCurrent b => b.index < R.draft.builder.blockCount
  | _ => True

theorem fillable_step (h : R.draft.Fillable) {op : Op} (hop : R.Within op) :
    (R.step op).draft.Fillable := by
  cases op with
  | newBlock label => exact ⟨h.newBlock label, h.typed⟩
  | setCurrent c => exact ⟨h.setCurrent hop, h.typed⟩
  | push inst ty => exact ⟨h.push inst ty, h.typed⟩
  | terminate t => exact ⟨h.terminate t, h.typed⟩
  | invoke callee arguments result normal unwind =>
    exact ⟨h.invoke callee arguments result normal unwind, h.typed⟩
  | phi c ty => exact ⟨h.phi c ty, h.typed⟩
  | addIncoming phi pred v => exact ⟨h.addIncoming phi pred v, h.typed⟩
  | declare y ty => exact h.declare y ty
  | write y c v => exact ⟨h.toRooted, h.typed⟩
  | read y c =>
    rw [draft_read]
    exact Drafting.fillable_upkeep.read h y trivial
  | sealBlock c =>
    rw [draft_sealBlock]
    exact Drafting.fillable_upkeep.sealBlock h (h.release c) (fun _ _ => trivial) (fun _ => id)
      fun _ h' => ⟨h'.toRooted, h'.typed⟩

theorem fillable_run (h : R.draft.Fillable) {ops : List Op} (hops : Keeps Within R ops) :
    (R.run ops).draft.Fillable := by
  induction ops generalizing R with
  | nil => exact h
  | cons op rest ih => exact ih (fillable_step h hops.1) hops.2

theorem fillable_start (name : String) (params : List Ty) (result : Ty) :
    (start name params result).draft.Fillable where
  current := by simp [start, Builder.start, Builder.blockCount, Flow.Function.entry]
  preds {c q} hq := by
    rw [(frame_start name params result c).1] at hq
    cases hq
  typed := nofun

end Recording

/-! ## Searches for variables with a type -/

namespace Draft

/-- A search may go through all blocks as long as its variable has a type. -/
abbrev HasType (d : Draft) (x : SymbolId) (_ : Block) : Prop := (d.known.type? x).isSome

theorem not_untyped (d : Draft) : ¬ Untyped d.HasType d := by
  rintro ⟨x, c, hsome, -, hnone⟩
  have htype : (d.known.type? x).isSome := hsome
  rw [hnone] at htype
  cases htype

theorem search_hasType {d : Draft} {jobs : List OpenPhi} (hd : d.Fillable) (hacyclic : d.Acyclic)
    (hjobs : ∀ p ∈ jobs, p.phi.index < d.builder.valueCount ∧ (d.known.type? p.var).isSome) :
    Search d.HasType d jobs where
  closed hx _ _ _ := hx
  served p hp _ _ := (hjobs p hp).2
  numbered p hp := (hjobs p hp).1
  preds := hd.preds
  acyclic := hacyclic

end Draft

/-- A search that comes to no variable without a type succeeds. -/
theorem Goes.ok {α : Type} {P : SymbolId → Block → Prop} {d₀ d : Draft} {work : Drafting α}
    {post : α → Draft → Prop} (h : Goes P d₀ work d post) (htyped : ¬ Untyped P d₀) :
    ∃ a d', work.on d = (.ok a, d') ∧ post a d' := by
  unfold Goes at h
  rcases hwork : work.on d with ⟨e | a, d'⟩ <;> rw [hwork] at h
  · exact absurd h htyped
  · exact ⟨a, d', rfl, h⟩

namespace Drafting

variable {d : Draft} {x : SymbolId} {b : Block}

theorem fillAll_ok (hd : d.Fillable) (hacyclic : d.Acyclic) {jobs : List OpenPhi}
    (hjobs : ∀ p ∈ jobs, p.phi.index < d.builder.valueCount ∧ (d.known.type? p.var).isSome) :
    ∃ d', on (fillAll jobs) d = (.ok (), d') := by
  have hsearch := Draft.search_hasType hd hacyclic hjobs
  obtain ⟨⟨⟩, d', hon, -⟩ := (goes_fillAll (Stage.start _ d jobs) hsearch).ok d.not_untyped
  exact ⟨d', hon⟩

theorem read_ok (hd : d.Fillable) (hacyclic : d.Acyclic) (htype : (d.known.type? x).isSome) :
    ∃ v d', on (read x b) d = (.ok v, d') := by
  have hsearch : Search d.HasType d [] := Draft.search_hasType hd hacyclic (by simp)
  obtain ⟨v, d', hon, -⟩ := (goes_read (b := b) hsearch htype).ok d.not_untyped
  exact ⟨v, d', hon⟩

/-- The phis that a walk has made can be filled. -/
theorem fillAll_made_ok (hd : d.Fillable) (hacyclic : d.Acyclic) {v : Value} {made : List OpenPhi}
    {d₁ : Draft} (hresolve : on (resolve x b) d = (.ok (v, made), d₁)) :
    ∃ d', on (fillAll made) d₁ = (.ok (), d') := by
  cases htype : d.known.type? x with
  | none =>
    -- Only a value has been found.
    have hmade : made = [] := by
      rw [on_resolve, htype] at hresolve
      rcases hwalk : d.walkFrom x b with ⟨gone, u | stop | stop | _⟩ <;> rw [hwalk] at hresolve <;>
        cases hresolve
      rfl
    rw [hmade]
    exact ⟨d₁, on_fillAll_nil d₁⟩
  | some ty =>
    have hsearch : Search d.HasType d [] := Draft.search_hasType hd hacyclic (by simp)
    have hx : d.HasType x b := by
      show (d.known.type? x).isSome
      rw [htype]
      rfl
    have hstart : Stage d.HasType d [] [] [] ([] ++ []) d := Stage.start _ d []
    obtain ⟨r, d', hon, ⟨made', hstage⟩, -⟩ := (goes_resolve hstart hsearch hx).ok d.not_untyped
    rw [hresolve] at hon
    cases hon
    obtain ⟨⟨⟩, d', hfill, -⟩ :=
      (goes_fillAll (by simpa using hstage) hsearch).ok d.not_untyped
    exact ⟨d', hfill⟩

/-- The phis that have waited for a block can be filled. -/
theorem fillAll_incompleteOf_ok (hd : d.Fillable) (hregisters : d.Registers) (hacyclic : d.Acyclic)
    (b : Block) : ∃ d', on (fillAll (d.known.incompleteOf b).reverse) (release d b) = (.ok (), d') := by
  refine fillAll_ok (hd.release b) hacyclic fun p hp => ?_
  have hp' : p ∈ d.known.incomplete := List.mem_of_mem_filter (List.mem_reverse.1 hp)
  exact ⟨(hregisters p hp').1, hd.typed p hp'⟩

end Drafting

/-! ## Failures -/

namespace Draft

variable {d : Draft} {x : SymbolId}

/-- Walks from one block that cannot go on have come to the same end. -/
theorem Chain.unique {b last last' : Block} {gone gone' : List Block} (h : d.Chain x b gone last)
    (h' : d.Chain x b gone' last')
    (hlast : d.known.value? x last = none → ∀ q, ¬ d.StepsBack last q)
    (hlast' : d.known.value? x last' = none → ∀ q, ¬ d.StepsBack last' q) :
    gone = gone' ∧ last = last' := by
  induction gone generalizing b gone' with
  | nil =>
    have hb : b = last := h
    cases gone' with
    | nil => exact ⟨rfl, hb.symm.trans h'⟩
    | cons c rest =>
      obtain ⟨rfl, hnone, hsealed, q, hq, -⟩ := h'
      subst hb
      exact absurd ⟨hsealed, hq⟩ (hlast hnone q)
  | cons c rest ih =>
    obtain ⟨rfl, hnone, hsealed, q, hq, hrest⟩ := h
    cases gone' with
    | nil =>
      have hb : c = last' := h'
      subst hb
      exact absurd ⟨hsealed, hq⟩ (hlast' hnone q)
    | cons c' rest' =>
      obtain ⟨rfl, -, -, q', hq', hrest'⟩ := h'
      rw [hq] at hq'
      cases hq'
      obtain ⟨rfl, rfl⟩ := ih hrest hrest'
      exact ⟨rfl, rfl⟩

theorem Stop.no_step {c : Block} (h : d.Stop x c) (q : Block) : ¬ d.StepsBack c q :=
  fun hstep => h.noChain hstep.1 q hstep.2

end Draft

namespace Drafting

variable {d : Draft} {x : SymbolId} {b : Block}

/-- A read of a variable without a type fails at the end of its walk, if that has no value. -/
theorem read_fails (htype : d.known.type? x = none) {gone : List Block} {c : Block}
    (hchain : d.Chain x b gone c) (hstop : d.Stop x c) (hacyclic : d.Acyclic) :
    on (read x b) d = (.error (.ofDefect (.undeclared x c)), d) := by
  have hread := on_read_untyped (b := b) htype
  have hwalk : ∀ {stop}, d.walkFrom x b = stop → stop.2 ≠ .endless →
      ∃ last, d.Chain x b stop.1 last ∧ d.EndsAt x last stop.2 := by
    rintro ⟨gone', stop⟩ hwalk hends
    exact Draft.walk_spec hwalk hends
  rcases hfrom : d.walkFrom x b with ⟨gone', v | stop | stop | _⟩ <;> rw [hfrom] at hread
  case bound =>
    obtain ⟨last, hchain', hvalue⟩ := hwalk hfrom nofun
    have hbound : d.known.value? x last = some v := hvalue
    obtain ⟨-, rfl⟩ := hchain.unique hchain' (fun _ => hstop.no_step) (by simp [hbound])
    rw [hstop.unbound] at hbound
    cases hbound
  case unsealed =>
    obtain ⟨last, hchain', rfl, -, hopen⟩ := hwalk hfrom nofun
    obtain ⟨-, rfl⟩ := hchain.unique hchain' (fun _ => hstop.no_step) fun _ q hstep => by
      have hsealed := hstep.1
      rw [hopen] at hsealed
      cases hsealed
    exact hread
  case merge =>
    obtain ⟨last, hchain', rfl, -, -, hmerge⟩ := hwalk hfrom nofun
    obtain ⟨-, rfl⟩ := hchain.unique hchain' (fun _ => hstop.no_step) fun _ q hstep => hmerge q hstep.2
    exact hread
  case endless => exact absurd (by rw [hfrom]) (Draft.walkFrom_ends hacyclic x b)

/-- A read that fails comes to a block where its variable needs a phi and has no type. Nothing has been
done then. -/
theorem eq_of_read_fails (hd : d.Fillable) (hacyclic : d.Acyclic) {e : LoweringError} {d' : Draft}
    (h : on (read x b) d = (.error e, d')) :
    d' = d ∧ d.known.type? x = none ∧ ∃ gone c, d.Chain x b gone c ∧ d.Stop x c := by
  cases htype : d.known.type? x with
  | some ty =>
    obtain ⟨v, d₁, hok⟩ := read_ok (x := x) (b := b) hd hacyclic (by rw [htype]; rfl)
    rw [hok] at h
    cases h
  | none =>
    have hread := on_read_untyped (b := b) htype
    rcases hfrom : d.walkFrom x b with ⟨gone, v | stop | stop | _⟩ <;> rw [hfrom, h] at hread
    case bound => cases hread
    case unsealed =>
      cases hread
      obtain ⟨last, hchain, rfl, hnone, hopen⟩ := Draft.walk_spec hfrom nofun
      exact ⟨rfl, rfl, gone, stop, hchain, hnone, by simp [hopen]⟩
    case merge =>
      cases hread
      obtain ⟨last, hchain, rfl, hnone, -, hmerge⟩ := Draft.walk_spec hfrom nofun
      exact ⟨rfl, rfl, gone, stop, hchain, hnone, fun _ => hmerge⟩
    case endless => exact absurd (by rw [hfrom]) (Draft.walkFrom_ends hacyclic x b)

/-- Sealing fails only where it has done nothing yet. -/
theorem eq_of_sealBlock_fails (hd : d.Fillable) (hregisters : d.Registers) (hacyclic : d.Acyclic)
    {e : LoweringError} {d' : Draft} (h : on (sealBlock b) d = (.error e, d')) :
    d' = d ∧ d.known.isSealed b = true := by
  rw [on_sealBlock] at h
  obtain ⟨d₁, hfill⟩ := fillAll_incompleteOf_ok hd hregisters hacyclic b
  rw [hfill] at h
  split at h
  · next hsealed =>
    cases h
    exact ⟨rfl, hsealed⟩
  · cases h

end Drafting

/-- When the operations on variables fail, and what they leave behind then: a sealing fails for a block
that is sealed already, a read for a variable without a type whose walk ends where there is no value, and
filling phis never. Whatever has failed has changed nothing. -/
structure Draft.RefusesExactly (d : Draft) : Prop where
  sealing : ∀ b, (∃ e d', (Drafting.sealBlock b).on d = (.error e, d')) ↔ d.known.isSealed b = true
  reading : ∀ x b, (∃ e d', (Drafting.read x b).on d = (.error e, d')) ↔
    d.known.type? x = none ∧ ∃ gone c, d.Chain x b gone c ∧ d.Stop x c
  fills_read : ∀ x b v made d₁, (Drafting.resolve x b).on d = (.ok (v, made), d₁) →
    ∃ d', (Drafting.fillAll made).on d₁ = (.ok (), d')
  fills_sealed : ∀ b, ∃ d', (Drafting.fillAll (d.known.incompleteOf b).reverse).on
    (Drafting.release d b) = (.ok (), d')
  kept_sealing : ∀ b e d', (Drafting.sealBlock b).on d = (.error e, d') → d' = d
  kept_reading : ∀ x b e d', (Drafting.read x b).on d = (.error e, d') → d' = d

theorem Draft.Fillable.refusesExactly {d : Draft} (hd : d.Fillable) (hregisters : d.Registers)
    (hacyclic : d.Acyclic) : d.RefusesExactly where
  sealing b := by
    refine ⟨fun ⟨e, d', h⟩ => (Drafting.eq_of_sealBlock_fails hd hregisters hacyclic h).2,
      fun hsealed => ?_⟩
    rw [Drafting.on_sealBlock, if_pos hsealed]
    exact ⟨_, d, rfl⟩
  reading x b := by
    refine ⟨fun ⟨e, d', h⟩ => (Drafting.eq_of_read_fails hd hacyclic h).2, ?_⟩
    rintro ⟨htype, gone, c, hchain, hstop⟩
    exact ⟨_, d, Drafting.read_fails htype hchain hstop hacyclic⟩
  fills_read _ _ _ _ _ h := Drafting.fillAll_made_ok hd hacyclic h
  fills_sealed := Drafting.fillAll_incompleteOf_ok hd hregisters hacyclic
  kept_sealing _ _ _ h := (Drafting.eq_of_sealBlock_fails hd hregisters hacyclic h).1
  kept_reading _ _ _ _ h := (Drafting.eq_of_read_fails hd hacyclic h).1

namespace Recording

/-- Whatever steps have been taken in existing blocks, reads and sealings fail in these cases only and
leave no trace, unless there is a cycle of sealed blocks with one predecessor each. -/
theorem refusals_exact {name : String} {params : List Ty} {result : Ty} {ops : List Op}
    (hops : Keeps Within (start name params result) ops)
    (hacyclic : ((start name params result).run ops).draft.Acyclic) :
    ((start name params result).run ops).draft.RefusesExactly :=
  (fillable_run (fillable_start name params result) hops).refusesExactly (registers_run nofun) hacyclic

/-- The loop with the late write goes to existing blocks only. -/
theorem within_late : Keeps Within (start "loop" [] .int) (loopFront ++ .read ⟨0⟩ ⟨1⟩ :: lateBack) := by
  refine ⟨trivial, trivial, trivial, trivial, trivial, trivial, trivial, trivial, ?_, trivial,
    trivial, trivial, trivial, ?_, trivial, trivial, trivial⟩ <;> rw [Within] <;> decide +kernel

/-- In the loop, no block can be sealed again. A read of a variable without a type behind the loop walks
to the head of the loop, where two edges meet, and fails. -/
theorem refusals_exact_loop :
    Keeps Within (start "loop" [] .int) (loopFront ++ .read ⟨0⟩ ⟨1⟩ :: lateBack) ∧
      (loopWith lateBack).draft.Acyclic ∧ (loopWith lateBack).draft.RefusesExactly :=
  ⟨within_late, complete_lateBack.acyclic, refusals_exact within_late complete_lateBack.acyclic⟩

example : (Drafting.read ⟨7⟩ ⟨2⟩).on (loopWith lateBack).draft =
    (.error (.ofDefect (.undeclared ⟨7⟩ ⟨1⟩)), (loopWith lateBack).draft) := rfl

end Recording

end Abacus.Lowering
