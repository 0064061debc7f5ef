import Abacus.Proofs.Variables.Stages
import Abacus.Proofs.Variables.Recursion

/-!
# Two ways to search

The search with a list of phis that need operands and the search by recursion take the same steps in
different orders. Each of them keeps to the stages and ends in one in which no operand is missing, or it
comes to a variable without a type.

* `Search` — what both rely on;
* `Goes` — work that ends well, or because of a variable without a type;
* `goes_read`, `goes_fillAll` — the search with a list;
* `Recursive.goes_read`, `Recursive.goes_giveAll` — the search by recursion.

The list has enough rounds because each further phi binds its variable in one more block. The recursion
goes deep enough for the same reason: between two phis of a variable there is only a walk, which is no
longer than there are blocks.
-/

namespace Abacus.Lowering

open Abacus.Flow (Value Block Ty Inst Terminator Builder BlockInfo ValueInfo)

/-- What a search relies on that begins in `d₀`, goes through blocks of `P`, and starts with phis `jobs`
that need operands. -/
structure Search (P : SymbolId → Block → Prop) (d₀ : Draft) (jobs : List OpenPhi) : Prop where
  closed : ∀ {x c q}, P x c → d₀.known.value? x c = none → d₀.known.isSealed c = true →
    q ∈ d₀.builder.preds c → P x q
  served : ∀ p ∈ jobs, ∀ q ∈ d₀.builder.preds p.block, P p.var q
  numbered : ∀ p ∈ jobs, p.phi.index < d₀.builder.valueCount
  preds : ∀ {c q}, q ∈ d₀.builder.preds c → q.index < d₀.builder.blockCount
  acyclic : d₀.Acyclic

/-- The search comes to a block where a variable without a type needs a phi. -/
def Untyped (P : SymbolId → Block → Prop) (d₀ : Draft) : Prop :=
  ∃ x c, P x c ∧ d₀.Stop x c ∧ d₀.known.type? x = none

/-! ## Work that goes on -/

/-- The work ends with something that holds, or because of a variable without a type. -/
def Goes {α : Type} (P : SymbolId → Block → Prop) (d₀ : Draft) (work : Drafting α) (d : Draft)
    (post : α → Draft → Prop) : Prop :=
  match work.on d with
  | (.ok a, d') => post a d'
  | (.error _, _) => Untyped P d₀

section Goes

variable {α β : Type} {P : SymbolId → Block → Prop} {d₀ d : Draft} {work : Drafting α}
  {next : α → Drafting β} {mid : α → Draft → Prop} {post : β → Draft → Prop}

theorem Goes.bind (h : Goes P d₀ work d mid)
    (hnext : ∀ a d', mid a d' → Goes P d₀ (next a) d' post) : Goes P d₀ (work >>= next) d post := by
  unfold Goes at h ⊢
  rw [Drafting.on_bind]
  rcases hwork : work.on d with ⟨e | a, d'⟩
  · rw [hwork] at h
    exact h
  · rw [hwork] at h
    exact hnext a d' h

theorem Goes.mono {post : α → Draft → Prop} (h : Goes P d₀ work d mid)
    (himp : ∀ a d', mid a d' → post a d') : Goes P d₀ work d post := by
  unfold Goes at h ⊢
  rcases hwork : work.on d with ⟨e | a, d'⟩
  · rw [hwork] at h
    exact h
  · rw [hwork] at h
    exact himp a d' h

/-- Work whose result is known. -/
theorem goes_of_on {a : α} {d' : Draft} (hwork : work.on d = (.ok a, d')) (h : mid a d') :
    Goes P d₀ work d mid := by
  unfold Goes
  rw [hwork]
  exact h

/-- Work that has failed. -/
theorem goes_of_error {e : LoweringError} {d' : Draft} (hwork : work.on d = (.error e, d'))
    (h : Untyped P d₀) : Goes P d₀ work d mid := by
  unfold Goes
  rw [hwork]
  exact h

theorem goes_pure {a : α} (h : mid a d) : Goes P d₀ (pure a) d mid := goes_of_on rfl h

/-- Work that begins with a look at the draft. -/
theorem goes_get {next : Draft → Drafting β} (h : Goes P d₀ (next d) d post) :
    Goes P d₀ (get >>= next) d post := by
  unfold Goes at h ⊢
  rw [Drafting.on_bind, Drafting.on_get]
  exact h

end Goes

/-- A chain stays one as long as nothing is bound along it. -/
theorem Draft.Chain.congr {d d' : Draft} {x : SymbolId} {b last : Block} {gone : List Block}
    (h : d.Chain x b gone last) (hsealed : ∀ c, d'.known.isSealed c = d.known.isSealed c)
    (hpreds : ∀ c, d'.builder.preds c = d.builder.preds c)
    (hnone : ∀ c ∈ gone, d'.known.value? x c = none) : d'.Chain x b gone last := by
  induction gone generalizing b with
  | nil => exact h
  | cons c rest ih =>
    obtain ⟨rfl, -, hc, q, hq, hrest⟩ := h
    refine ⟨rfl, hnone c (by simp), ?_, q, ?_, ?_⟩
    · rw [hsealed, hc]
    · rw [hpreds, hq]
    · exact ih hrest fun e he => hnone e (List.mem_cons_of_mem _ he)

namespace Stage

variable {P : SymbolId → Block → Prop} {d₀ d d' : Draft} {jobs made : List OpenPhi}
  {log tasks : List Task} {x : SymbolId} {b c q : Block} {v : Value}

theorem acyclic (h : Stage P d₀ jobs made log tasks d) (hacyclic : d₀.Acyclic) : d.Acyclic := by
  have hsteps : d.StepsBack = d₀.StepsBack := by
    funext c q
    unfold Draft.StepsBack
    rw [h.isSealed, h.preds]
  intro c
  rw [hsteps]
  exact hacyclic c

/-- What tasks ask for is searched. -/
theorem searched (h : Stage P d₀ jobs made log tasks d) (hS : Search P d₀ jobs) {t : Task}
    (ht : t ∈ log ++ tasks) : P t.phi.var t.pred ∧ t.pred ∈ d₀.builder.preds t.phi.block := by
  have hmem : t ∈ (log ++ tasks).filter (·.phi.phi = t.phi.phi) :=
    List.mem_filter.2 ⟨ht, by simp⟩
  rw [h.balance.total] at hmem
  obtain ⟨p, hp, hpt⟩ := List.mem_flatMap.1 (List.mem_of_mem_filter hmem)
  obtain ⟨q, hq, rfl⟩ := List.mem_map.1 hpt
  refine ⟨?_, hq⟩
  rcases List.mem_append.1 hp with hp | hp
  · exact hS.served p hp q hq
  · obtain ⟨hp, hsealed⟩ := List.mem_filter.1 hp
    obtain ⟨hP, hstop⟩ := h.bindings.stops p hp
    exact hS.closed hP hstop.unbound hsealed hq

/-- Where a walk leads. -/
theorem walk (h : Stage P d₀ jobs made log tasks d) (hS : Search P d₀ jobs) (hP : P x b) :
    ∃ last, d.Chain x b (d.walkFrom x b).1 last ∧ d.EndsAt x last (d.walkFrom x b).2 ∧ P x last ∧
      ∀ c ∈ (d.walkFrom x b).1, P x c := by
  have hends := Draft.walkFrom_ends (h.acyclic hS.acyclic) x b
  obtain ⟨last, hchain, hlast⟩ := Draft.walk_spec (show d.walk x _ b = _ from rfl) hends
  have hall := hchain.all (fun c q hc hnone hsealed hq => hS.closed hc (h.unbound hnone)
    (h.isSealed c ▸ hsealed) (h.preds c ▸ hq)) hP
  exact ⟨last, hchain, hlast, hall⟩

/-- A phi is made at the end of a chain, and kept along it. -/
theorem settle {ty : Ty} {before after : List Task} {gone blocks : List Block}
    (h : Stage P d₀ jobs made log (before ++ after) d) (hS : Search P d₀ jobs)
    (hchain : d.Chain x b gone c) (hP : P x c) (hall : ∀ e ∈ gone, P x e)
    (hnone : d.known.value? x c = none)
    (hstop : d.known.isSealed c = true → ∀ q, d.builder.preds c ≠ [q])
    (htype : d.known.type? x = some ty) (hblocks : ∀ e, e ∈ blocks ↔ e ∈ gone ∨ e = c) :
    Stage P d₀ jobs (made ++ [⟨x, c, ⟨d.builder.valueCount⟩⟩]) log
      (before ++ (if d.known.isSealed c then d₀.tasksOf ⟨x, c, ⟨d.builder.valueCount⟩⟩ else []) ++
        after)
      (d.settle x c ty (if d.known.isSealed c then [] else [⟨x, c, ⟨d.builder.valueCount⟩⟩])
        blocks) := by
  have hmake := h.make hS.numbered hP hnone hstop htype
  -- The chain does not come through its end, so it is free as before.
  have hfree : ∀ e ∈ gone, (d.make x c ty).known.value? x e = none := by
    intro e he
    obtain ⟨hnone', hsealed, q, hq, -⟩ := hchain.step he
    rw [Draft.value?_make, if_neg, hnone']
    rintro ⟨-, rfl⟩
    exact hstop hsealed q hq
  have hchain' : (d.make x c ty).Chain x b gone c :=
    hchain.congr (fun _ => Draft.isSealed_settle _) (fun _ => Draft.preds_settle _) hfree
  have hkept := hmake.keep hchain' Draft.value?_make_self hall
  have hknown := Variables.frame_writeAll x ⟨d.builder.valueCount⟩
  refine hkept.congr rfl ?_ ?_ ?_ ?_ ?_
  · exact (hknown blocks _).2.2.1.trans ((hknown gone _).2.2.1.trans (hknown [c] _).2.2.1).symm
  · exact (hknown blocks _).2.1.trans ((hknown gone _).2.1.trans (hknown [c] _).2.1).symm
  · exact (hknown blocks _).2.2.2.trans ((hknown gone _).2.2.2.trans (hknown [c] _).2.2.2).symm
  · exact (hknown blocks _).1.trans ((hknown gone _).1.trans (hknown [c] _).1).symm
  · intro y e
    rw [Draft.value?_settle, Draft.value?_bindAll, Draft.value?_make]
    by_cases hy : y = x
    · by_cases hgone : e ∈ gone
      · simp [hy, hblocks, hgone]
      · simp [hy, hblocks, hgone]
    · simp [hy]

end Stage

/-! ## The search with a list -/

/-- What a search for one variable from `b` costs: each phi that is to be filled stands for a block
that has got a value. -/
structure Spends (d d' : Draft) (x : SymbolId) (b : Block) (new : List OpenPhi) : Prop where
  growth : d.Extends d'
  vars : ∀ p ∈ new, p.var = x
  single : new.length ≤ 1
  cost : b.index < d.builder.blockCount → new.length + d'.unbound x ≤ d.unbound x

/-- Phis that need operands and blocks without a value are not more in the end than before. -/
structure Proceeds (vars : List SymbolId) (d : Draft) (later : List OpenPhi) (d' : Draft)
    (later' : List OpenPhi) : Prop where
  growth : d.Extends d'
  within : ∀ o ∈ later', o.var ∈ vars
  cost : later'.length + d'.unboundIn vars ≤ later.length + d.unboundIn vars

namespace Drafting

variable {P : SymbolId → Block → Prop} {d₀ d : Draft} {jobs made : List OpenPhi}
  {log : List Task} {x : SymbolId} {b : Block}

theorem goes_resolve {before after : List Task} (h : Stage P d₀ jobs made log (before ++ after) d)
    (hS : Search P d₀ jobs) (hP : P x b) :
    Goes P d₀ (resolve x b) d fun r d' =>
      (∃ made', Stage P d₀ jobs made' log (before ++ r.2.flatMap d₀.tasksOf ++ after) d') ∧
        d'.known.value? x b = some r.1 ∧ Spends d d' x b r.2 := by
  obtain ⟨last, hchain, hends, hlast, hall⟩ := h.walk hS hP
  have hon := on_resolve d x b
  rcases hwalk : d.walkFrom x b with ⟨gone, v | stop | stop | _⟩ <;>
    rw [hwalk] at hchain hends hall hon
  case bound =>
    have hnew : ∀ c ∈ gone, d.known.value? x c = none := fun c hc => (hchain.step hc).1
    have hgrowth : d.Extends (d.bindAll x gone v) := ⟨Draft.value?_bindAll_of_some hnew, rfl⟩
    refine goes_of_on hon ⟨⟨made, ?_⟩, ?_, hgrowth, by simp, by simp, fun _ => ?_⟩
    · simpa using h.keep hchain hends hall
    · rw [Draft.value?_bindAll]
      rcases hchain.start_mem with hmem | rfl
      · rw [if_pos ⟨rfl, hmem⟩]
      · split
        · rfl
        · exact hends
    · simpa using hgrowth.unbound_le x
  case unsealed =>
    obtain ⟨rfl, hnone, hopen⟩ := hends
    cases htype : d.known.type? x with
    | none =>
      simp only [htype] at hon
      refine goes_of_error hon ⟨x, stop, hlast, ⟨h.unbound hnone, ?_⟩, ?_⟩
      · rw [← h.isSealed, hopen]
        simp
      · rw [← h.type?, htype]
    | some ty =>
      simp only [htype] at hon
      have hblocks : ∀ c, c ∈ gone ++ [stop] ↔ c ∈ gone ∨ c = stop := by simp
      have hnew : ∀ c ∈ gone ++ [stop], d.known.value? x c = none := by
        intro c hc
        rcases (hblocks c).1 hc with hc | rfl
        · exact (hchain.step hc).1
        · exact hnone
      have hstage := h.settle hS hchain hlast hall hnone (by simp [hopen]) htype hblocks
      simp only [hopen, Bool.false_eq_true, if_false, List.append_nil] at hstage
      have hgrowth : d.Extends (d.settle x stop ty [⟨x, stop, ⟨d.builder.valueCount⟩⟩]
          (gone ++ [stop])) := ⟨Draft.value?_settle_of_some hnew, Draft.blockCount_settle⟩
      refine goes_of_on hon ⟨⟨_, by simpa using hstage⟩, ?_, hgrowth, by simp, by simp, fun _ => ?_⟩
      · rw [Draft.value?_settle, if_pos ⟨rfl, (hblocks b).2 hchain.start_mem⟩]
      · simpa using hgrowth.unbound_le x
  case merge =>
    obtain ⟨rfl, hnone, hclosed, hmerge⟩ := hends
    cases htype : d.known.type? x with
    | none =>
      simp only [htype] at hon
      refine goes_of_error hon ⟨x, stop, hlast, ⟨h.unbound hnone, fun _ q => ?_⟩, ?_⟩
      · rw [← h.preds]
        exact hmerge q
      · rw [← h.type?, htype]
    | some ty =>
      simp only [htype] at hon
      have hblocks : ∀ c, c ∈ stop :: gone ↔ c ∈ gone ∨ c = stop := by simp [or_comm]
      have hnew : ∀ c ∈ stop :: gone, d.known.value? x c = none := by
        intro c hc
        rcases (hblocks c).1 hc with hc | rfl
        · exact (hchain.step hc).1
        · exact hnone
      have hstage := h.settle hS hchain hlast hall hnone (fun _ => hmerge) htype hblocks
      simp only [hclosed, if_true] at hstage
      have hgrowth : d.Extends (d.settle x stop ty [] (stop :: gone)) :=
        ⟨Draft.value?_settle_of_some hnew, Draft.blockCount_settle⟩
      refine goes_of_on hon ⟨⟨_, by simpa using hstage⟩, ?_, hgrowth, by simp, by simp, ?_⟩
      · rw [Draft.value?_settle, if_pos ⟨rfl, (hblocks b).2 hchain.start_mem⟩]
      · intro hb
        have hstop := (hchain.all (P := fun c => c.index < d.builder.blockCount)
          (fun c q _ _ _ hq => by
            rw [h.preds] at hq
            rw [h.outline.blockCount]
            exact hS.preds hq) hb).1
        have hlt := hgrowth.unbound_lt hstop hnone
          (by rw [Draft.value?_settle, if_pos ⟨rfl, by simp⟩]; rfl)
        simp only [List.length_singleton]
        omega
  case endless => exact absurd hends (by simp [Draft.EndsAt])

theorem goes_fillFrom {p : OpenPhi} {q : Block} {rest : List Task} {later : List OpenPhi}
    {vars : List SymbolId} (h : Stage P d₀ jobs made log
      (⟨p, q⟩ :: rest ++ later.flatMap d₀.tasksOf) d) (hS : Search P d₀ jobs)
    (hvars : ∀ o ∈ p :: later, o.var ∈ vars) :
    Goes P d₀ (fillFrom p later q) d fun later' d' =>
      (∃ made' log', Stage P d₀ jobs made' log' (rest ++ later'.flatMap d₀.tasksOf) d') ∧
        Proceeds vars d later d' later' := by
  obtain ⟨hP, hq⟩ := h.searched hS (t := ⟨p, q⟩) (by simp)
  refine Goes.bind (goes_resolve h hS hP) ?_
  rintro ⟨v, new⟩ d₁ ⟨⟨made', h₁⟩, hvalue, hspends⟩
  refine goes_of_on rfl ⟨⟨made', log ++ [⟨p, q⟩], ?_⟩, ?_⟩
  · have hgive := Stage.give (t := ⟨p, q⟩) (by simpa using h₁) hS.numbered hvalue
    simpa [Draft.addIncoming] using hgive
  · have hvar := hvars p (by simp)
    have hlt : q.index < d.builder.blockCount := by
      rw [h.outline.blockCount]
      exact hS.preds hq
    have hsaved : new.length + d₁.unboundIn vars ≤ d.unboundIn vars :=
      hspends.growth.unboundIn_add_le hvar (hspends.cost hlt)
    refine ⟨⟨hspends.growth.value, hspends.growth.blockCount⟩, ?_, ?_⟩
    · intro o ho
      rcases List.mem_append.1 ho with ho | ho
      · rw [hspends.vars o ho]
        exact hvar
      · exact hvars o (List.mem_cons_of_mem _ ho)
    · rw [List.length_append]
      show new.length + later.length + d₁.unboundIn vars ≤ _
      omega

theorem goes_operands {p : OpenPhi} {preds : List Block} {later : List OpenPhi}
    {vars : List SymbolId} (h : Stage P d₀ jobs made log
      (preds.map (Task.mk p) ++ later.flatMap d₀.tasksOf) d) (hS : Search P d₀ jobs)
    (hvars : ∀ o ∈ p :: later, o.var ∈ vars) :
    Goes P d₀ (preds.foldlM (fillFrom p) later) d fun later' d' =>
      (∃ made' log', Stage P d₀ jobs made' log' (later'.flatMap d₀.tasksOf) d') ∧
        Proceeds vars d later d' later' := by
  induction preds generalizing d later made log with
  | nil =>
    exact goes_pure ⟨⟨made, log, h⟩, Draft.Extends.rfl' d,
      fun o ho => hvars o (List.mem_cons_of_mem _ ho), Nat.le_refl _⟩
  | cons q rest ih =>
    rw [List.foldlM_cons]
    refine Goes.bind (goes_fillFrom h hS hvars) ?_
    intro mid d₁ hpost
    obtain ⟨⟨made₁, log₁, h₁⟩, hfirst⟩ := hpost
    have hmid : ∀ o ∈ p :: mid, o.var ∈ vars := by
      intro o ho
      rcases List.mem_cons.1 ho with rfl | ho
      · exact hvars o (by simp)
      · exact hfirst.within o ho
    refine (ih h₁ hmid).mono ?_
    intro later' d' hpost
    obtain ⟨hstage, hrest⟩ := hpost
    exact ⟨hstage, hfirst.growth.trans hrest.growth, hrest.within,
      Nat.le_trans hrest.cost hfirst.cost⟩

theorem goes_fill {rounds : Nat} {pending : List OpenPhi} {vars : List SymbolId}
    (h : Stage P d₀ jobs made log (pending.flatMap d₀.tasksOf) d) (hS : Search P d₀ jobs)
    (hvars : ∀ o ∈ pending, o.var ∈ vars)
    (hrounds : pending.length + d.unboundIn vars ≤ rounds) :
    Goes P d₀ (fill rounds pending) d fun _ d' =>
      (∃ made' log', Stage P d₀ jobs made' log' [] d') ∧ d.Extends d' := by
  induction rounds generalizing d pending made log with
  | zero =>
    have hnil : pending = [] := List.length_eq_zero_iff.1 (by omega)
    subst hnil
    exact goes_pure ⟨⟨made, log, h⟩, Draft.Extends.rfl' d⟩
  | succ rounds ih =>
    cases pending with
    | nil => exact goes_pure ⟨⟨made, log, h⟩, Draft.Extends.rfl' d⟩
    | cons p rest =>
      rw [fill]
      refine goes_get ?_
      rw [h.preds]
      refine Goes.bind (goes_operands h hS hvars) ?_
      intro later d₁ hpost
      obtain ⟨⟨made₁, log₁, h₁⟩, hloop⟩ := hpost
      have hcost := hloop.cost
      refine (ih h₁ hloop.within ?_).mono ?_
      · simp only [List.length_cons] at hrounds
        omega
      · intro _ d' hpost
        obtain ⟨hstage, hrest⟩ := hpost
        exact ⟨hstage, hloop.growth.trans hrest⟩

theorem goes_fillAll {pending : List OpenPhi}
    (h : Stage P d₀ jobs made log (pending.flatMap d₀.tasksOf) d) (hS : Search P d₀ jobs) :
    Goes P d₀ (fillAll pending) d fun _ d' =>
      (∃ made' log', Stage P d₀ jobs made' log' [] d') ∧ d.Extends d' := by
  have hcost := d.unboundIn_le (pending.map OpenPhi.var)
  rw [List.length_map] at hcost
  have hrounds : pending.length + d.unboundIn (pending.map OpenPhi.var) ≤
      pending.length * (d.builder.blockCount + 1) := by
    rw [Nat.mul_succ]
    omega
  exact goes_get (goes_fill h hS (fun o ho => List.mem_map_of_mem ho) hrounds)

/-- The search with a list ends with no operand missing. -/
theorem goes_read (hS : Search P d₀ []) (hP : P x b) :
    Goes P d₀ (read x b) d₀ fun v d' =>
      (∃ made log, Stage P d₀ [] made log [] d') ∧ d'.known.value? x b = some v := by
  have hstart : Stage P d₀ [] [] [] ([] ++ []) d₀ := Stage.start P d₀ []
  refine Goes.bind (goes_resolve hstart hS hP) ?_
  rintro ⟨v, new⟩ d₁ ⟨⟨made₁, h₁⟩, hvalue, -⟩
  refine Goes.bind (goes_fillAll (by simpa using h₁) hS) ?_
  rintro ⟨⟩ d' ⟨hstage, hgrowth⟩
  exact goes_pure ⟨hstage, hgrowth.value hvalue⟩

end Drafting

/-! ## The search by recursion -/

namespace Recursive

open Drafting (on_bind on_newPhi on_note on_pure note rebuild newPhi write)

variable {P : SymbolId → Block → Prop} {d₀ d : Draft} {jobs made : List OpenPhi}
  {log tasks : List Task} {x : SymbolId} {b : Block}

/-- A read has found what the block then has, and has given all operands that it has asked for. -/
def Reads (P : SymbolId → Block → Prop) (d₀ : Draft) (jobs : List OpenPhi) (tasks : List Task)
    (x : SymbolId) (b : Block) (d : Draft) (v : Value) (d' : Draft) : Prop :=
  (∃ made log, Stage P d₀ jobs made log tasks d') ∧ d'.known.value? x b = some v ∧ d.Extends d'

theorem giveOperands_cons (readAt : SymbolId → Block → Drafting Value) (p : OpenPhi) (q : Block)
    (rest : List Block) : giveOperands readAt p (q :: rest) =
      (readAt p.var q >>= fun v => rebuild fun b => b.addIncoming p.phi q v) >>= fun _ =>
        giveOperands readAt p rest := rfl

theorem goes_giveOperands {readAt : SymbolId → Block → Drafting Value} {p : OpenPhi}
    {preds : List Block} (h : Stage P d₀ jobs made log (preds.map (Task.mk p) ++ tasks) d)
    (hS : Search P d₀ jobs)
    (hread : ∀ q ∈ preds, ∀ {made log tasks d₁}, Stage P d₀ jobs made log tasks d₁ → d.Extends d₁ →
      P p.var q → Goes P d₀ (readAt p.var q) d₁ (Reads P d₀ jobs tasks p.var q d₁)) :
    Goes P d₀ (giveOperands readAt p preds) d fun _ d' =>
      (∃ made' log', Stage P d₀ jobs made' log' tasks d') ∧ d.Extends d' := by
  induction preds generalizing d made log with
  | nil => exact goes_pure ⟨⟨made, log, h⟩, Draft.Extends.rfl' d⟩
  | cons q rest ih =>
    obtain ⟨hP, -⟩ := h.searched hS (t := ⟨p, q⟩) (by simp)
    rw [giveOperands_cons]
    -- The read leaves the operands alone that come after this one.
    have hoperand : Goes P d₀ (readAt p.var q >>= fun v => rebuild fun b => b.addIncoming p.phi q v) d
        fun _ d₁ => (∃ made' log', Stage P d₀ jobs made' log' (rest.map (Task.mk p) ++ tasks) d₁) ∧
          d.Extends d₁ := by
      refine Goes.bind (hread q (by simp) h (Draft.Extends.rfl' d) hP) ?_
      intro v d₁ hv
      obtain ⟨⟨made₁, log₁, h₁⟩, hvalue, hgrowth⟩ := hv
      exact goes_of_on rfl ⟨⟨made₁, _, h₁.give (t := ⟨p, q⟩) hS.numbered hvalue⟩,
        hgrowth.value, hgrowth.blockCount⟩
    refine Goes.bind hoperand ?_
    intro _ d₁ hd₁
    obtain ⟨⟨made₁, log₁, h₁⟩, hfirst⟩ := hd₁
    refine (ih h₁ fun q hq _ _ _ _ h₂ hgrowth hP => ?_).mono ?_
    · exact hread q (List.mem_cons_of_mem _ hq) h₂ (hfirst.trans hgrowth) hP
    · intro _ d' hd'
      exact ⟨hd'.1, hfirst.trans hd'.2⟩

/-- A phi needs a type. -/
theorem goes_newPhi (h : Stage P d₀ jobs made log tasks d) (hP : P x b)
    (hnone : d.known.value? x b = none)
    (hstop : d.known.isSealed b = true → ∀ q, d.builder.preds b ≠ [q]) :
    Goes P d₀ (newPhi x b) d fun phi d' => ∃ ty, d.known.type? x = some ty ∧
      phi = ⟨d.builder.valueCount⟩ ∧ d' = ⟨(d.builder.phi b ty).2, d.known.own phi x⟩ := by
  have hon := on_newPhi d x b
  cases htype : d.known.type? x with
  | none =>
    rw [htype] at hon
    refine goes_of_error hon ⟨x, b, hP, ⟨h.unbound hnone, fun hsealed q => ?_⟩, ?_⟩
    · rw [← h.isSealed] at hsealed
      rw [← h.preds]
      exact hstop hsealed q
    · rw [← h.type?, htype]
  | some ty =>
    rw [htype] at hon
    exact goes_of_on hon ⟨ty, rfl, rfl, rfl⟩

/-- The value of the only predecessor is kept, if a loop has not brought it already. -/
theorem goes_write {q : Block} {v : Value} (h : Stage P d₀ jobs made log tasks d) (hP : P x b)
    (hfree : d₀.known.value? x b = none) (hsealed : d₀.known.isSealed b = true)
    (hq : d₀.builder.preds b = [q]) (hvalue : d.known.value? x q = some v) :
    Goes P d₀ (write x b v) d fun _ d' =>
      Stage P d₀ jobs made log tasks d' ∧ d'.known.value? x b = some v ∧ d.Extends d' := by
  have hbound : ∀ y e, (d.bindAll x [b] v).known.value? y e =
      if y = x ∧ e = b then some v else d.known.value? y e := by
    intro y e
    rw [Draft.value?_bindAll]
    simp
  have hon : Drafting.on (write x b v) d = (.ok (), d.bindAll x [b] v) := rfl
  refine goes_of_on hon ?_
  cases hold : d.known.value? x b with
  | none =>
    have hchain : d.Chain x b [b] q :=
      ⟨rfl, hold, (h.isSealed b).trans hsealed, q, (h.preds b).trans hq, rfl⟩
    refine ⟨h.keep hchain hvalue (by simpa using hP), by rw [hbound, if_pos ⟨rfl, rfl⟩], ?_, rfl⟩
    exact Draft.value?_bindAll_of_some (by simpa using hold)
  | some u =>
    -- The walk has come back to this block: what it has there is what its predecessor has.
    have hu : u = v := by
      have := h.bindings.chained hfree hold hsealed hq
      rw [hvalue] at this
      exact (Option.some.inj this).symm
    have hsame : ∀ y e, (d.bindAll x [b] v).known.value? y e = d.known.value? y e := by
      intro y e
      rw [hbound]
      split
      · next he => rw [he.1, he.2, hold, hu]
      · rfl
    refine ⟨h.congr rfl rfl rfl rfl rfl hsame, by rw [hbound, if_pos ⟨rfl, rfl⟩], ?_, rfl⟩
    intro y e r hr
    rw [hsame, hr]

/-- A phi waits for its block to be sealed. -/
theorem goes_wait (h : Stage P d₀ jobs made log tasks d) (hS : Search P d₀ jobs) (hP : P x b)
    (hnone : d.known.value? x b = none) (hopen : d.known.isSealed b = false) :
    Goes P d₀ (do
        let phi ← newPhi x b
        note fun known => { known with incomplete := known.incomplete ++ [⟨x, b, phi⟩] }
        write x b phi
        return phi) d (Reads P d₀ jobs tasks x b d) := by
  have hstop : d.known.isSealed b = true → ∀ q, d.builder.preds b ≠ [q] := by simp [hopen]
  refine Goes.bind (goes_newPhi h hP hnone hstop) ?_
  intro phi d' hphi
  obtain ⟨ty, htype, rfl, rfl⟩ := hphi
  have hstage : Stage P d₀ jobs made log ([] ++ tasks) d := h
  have hmake := hstage.make hS.numbered hP hnone hstop htype
  rw [hopen, if_neg Bool.false_ne_true, List.append_nil, List.nil_append] at hmake
  have hdraft : d.make x b ty = d.settle x b ty [⟨x, b, ⟨d.builder.valueCount⟩⟩] [b] := by
    unfold Draft.make
    rw [hopen]
    rfl
  have hread : Reads P d₀ jobs tasks x b d ⟨d.builder.valueCount⟩ (d.make x b ty) :=
    ⟨⟨_, log, hmake⟩, Draft.value?_make_self, Draft.extends_make hnone⟩
  rw [hdraft] at hread
  exact goes_of_on rfl hread

/-- A phi is bound before its operands are read, so that each of them is read with one block less in
which its variable has no value. -/
theorem goes_merge {readAt : SymbolId → Block → Drafting Value}
    (h : Stage P d₀ jobs made log tasks d) (hS : Search P d₀ jobs) (hP : P x b)
    (hnone : d.known.value? x b = none) (hsealed : d.known.isSealed b = true)
    (hmerge : ∀ q, d.builder.preds b ≠ [q])
    (hread : ∀ q, ∀ {made log tasks d₁}, Stage P d₀ jobs made log tasks d₁ → d.Extends d₁ →
      d₁.unbound x < d.unbound x → P x q →
        Goes P d₀ (readAt x q) d₁ (Reads P d₀ jobs tasks x q d₁)) :
    Goes P d₀ (do
        let phi ← newPhi x b
        write x b phi
        giveOperands readAt ⟨x, b, phi⟩ (d.builder.preds b)
        return phi) d (Reads P d₀ jobs tasks x b d) := by
  refine Goes.bind (goes_newPhi h hP hnone fun _ => hmerge) ?_
  intro phi d' hpost
  obtain ⟨ty, htype, rfl, rfl⟩ := hpost
  have hwrite : Goes P d₀ (write x b ⟨d.builder.valueCount⟩)
      ⟨(d.builder.phi b ty).2, d.known.own ⟨d.builder.valueCount⟩ x⟩
      fun _ d₁ => d₁ = d.make x b ty := by
    refine goes_of_on rfl ?_
    unfold Draft.make
    rw [hsealed, if_pos rfl]
    unfold Draft.settle Draft.placePhi
    rw [List.append_nil]
    rfl
  refine Goes.bind hwrite ?_
  rintro ⟨⟩ _ rfl
  have hbound : (d.make x b ty).known.value? x b = some ⟨d.builder.valueCount⟩ :=
    Draft.value?_make_self
  have hgrowth : d.Extends (d.make x b ty) := Draft.extends_make hnone
  have hstage : Stage P d₀ jobs made log ([] ++ tasks) d := h
  have hmake := hstage.make hS.numbered hP hnone (fun _ => hmerge) htype
  rw [if_pos hsealed, List.nil_append] at hmake
  unfold Draft.tasksOf at hmake
  rw [h.preds]
  refine Goes.bind (goes_giveOperands hmake hS fun q hq _ _ _ d₁ h₁ hmore hPq => ?_) ?_
  · -- The block has a predecessor, so it exists and counts as one that has got a value.
    have hb : b.index < d.builder.blockCount := by
      rw [h.outline.blockCount]
      by_contra hb
      rw [Builder.preds_of_le (Nat.not_lt.1 hb)] at hq
      cases hq
    have hlt : (d.make x b ty).unbound x < d.unbound x :=
      hgrowth.unbound_lt hb hnone (by rw [hbound]; rfl)
    exact hread q h₁ (hgrowth.trans hmore) (Nat.lt_of_le_of_lt (hmore.unbound_le x) hlt) hPq
  · intro _ d₁ hd₁
    exact goes_pure ⟨hd₁.1, hd₁.2.value hbound, hgrowth.trans hd₁.2⟩

/-- The recursion ends with all operands given that it has asked for. The depth is enough for a walk
that ends and, for each block without a value, another one. -/
theorem goes_read {depth n : Nat} (h : Stage P d₀ jobs made log tasks d) (hS : Search P d₀ jobs)
    (hP : P x b) (hwalk : (d.walk x n b).2 ≠ .endless)
    (hdepth : n + (d.builder.blockCount + 2) * d.unbound x ≤ depth) :
    Goes P d₀ (read depth x b) d (Reads P d₀ jobs tasks x b d) := by
  -- A step back takes one from the walk. A merge starts a new walk, but leaves one block less
  -- without a value, and that pays for it.
  induction depth generalizing n d b made log tasks with
  | zero =>
    have hn : n = 0 := by omega
    subst hn
    exact absurd rfl hwalk
  | succ depth ih =>
    cases n with
    | zero => exact absurd rfl hwalk
    | succ n =>
      rw [read]
      refine goes_get ?_
      rw [Draft.walk] at hwalk
      cases hnone : d.known.value? x b with
      | some v => exact goes_pure ⟨⟨made, log, h⟩, hnone, Draft.Extends.rfl' d⟩
      | none =>
        simp only [hnone] at hwalk ⊢
        have hfree := h.unbound hnone
        cases hsealed : d.known.isSealed b with
        | false =>
          simp only [Bool.false_eq_true, if_false]
          exact goes_wait h hS hP hnone hsealed
        | true =>
          simp only [hsealed, if_true] at hwalk ⊢
          rw [h.isSealed] at hsealed
          split
          · next q hq =>
            simp only [hq] at hwalk
            have hq₀ := hq
            rw [h.preds] at hq₀
            have hPq : P x q := hS.closed hP hfree hsealed (by simp [hq₀])
            refine Goes.bind (ih h hPq hwalk (by omega)) ?_
            intro v d₁ hpost
            obtain ⟨⟨made₁, log₁, h₁⟩, hvalue, hgrowth⟩ := hpost
            refine Goes.bind (goes_write h₁ hP hfree hsealed hq₀ hvalue) ?_
            rintro ⟨⟩ d₂ ⟨h₂, hkept, hgrowth'⟩
            exact goes_pure ⟨⟨made₁, log₁, h₂⟩, hkept, hgrowth.trans hgrowth'⟩
          · next preds hmerge =>
            refine goes_merge h hS hP hnone ((h.isSealed b).trans hsealed) hmerge
              fun q _ _ _ d₁ h₁ hgrowth hlt hPq => ?_
            have hends := Draft.walkFrom_ends (h₁.acyclic hS.acyclic) x q
            refine ih h₁ hPq hends ?_
            rw [hgrowth.blockCount]
            have hstep := Nat.mul_le_mul_left (d.builder.blockCount + 2) hlt
            rw [Nat.mul_succ] at hstep
            omega

/-- How deep the recursion may go. -/
def depthBound (d : Draft) : Nat := (d.builder.blockCount + 1) * (d.builder.blockCount + 2)

theorem goes_read_of_depthBound {depth : Nat} (h : Stage P d₀ jobs made log tasks d)
    (hS : Search P d₀ jobs) (hP : P x b) (hdepth : depthBound d ≤ depth) :
    Goes P d₀ (read depth x b) d (Reads P d₀ jobs tasks x b d) := by
  have hends := Draft.walkFrom_ends (h.acyclic hS.acyclic) x b
  refine goes_read h hS hP hends ?_
  have hcost := Nat.mul_le_mul_left (d.builder.blockCount + 2) (d.unbound_le x)
  unfold depthBound at hdepth
  rw [Nat.mul_comm, Nat.mul_succ] at hdepth
  omega

/-- Phis get their operands one after the other. -/
theorem goes_giveAll {depth : Nat} {pending : List OpenPhi}
    (h : Stage P d₀ jobs made log (pending.flatMap d₀.tasksOf) d) (hS : Search P d₀ jobs)
    (hdepth : depthBound d ≤ depth) :
    Goes P d₀ (pending.forM fun p => giveOperands (read depth) p (d₀.builder.preds p.block)) d
      fun _ d' => ∃ made' log', Stage P d₀ jobs made' log' [] d' := by
  induction pending generalizing d made log with
  | nil => exact goes_pure ⟨made, log, h⟩
  | cons p rest ih =>
    refine Goes.bind (goes_giveOperands h hS fun q _ _ _ _ d₁ h₁ hgrowth hP => ?_) ?_
    · apply goes_read_of_depthBound h₁ hS hP
      unfold depthBound
      rw [hgrowth.blockCount]
      exact hdepth
    · rintro ⟨⟩ d₁ ⟨⟨made₁, log₁, h₁⟩, hgrowth⟩
      apply ih h₁
      unfold depthBound
      rw [hgrowth.blockCount]
      exact hdepth

end Recursive

end Abacus.Lowering
