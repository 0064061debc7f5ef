import Abacus.Proofs.Variables.Joins
import Abacus.Proofs.Variables.Refusals

/-!
# Searches come to an end

A walk goes back from block to block and would go round in a cycle of sealed blocks with one predecessor
each. Filling one phi may make others, which have to be filled, too. Without such a cycle both end: a walk
comes to no block twice, and each further phi is the only one of its variable in its block.

* `Draft.Searchable` — a draft in which searches end;
* `Draft.Searches`, `Draft.Searchable.searches` — searches lead through such drafts only;
* `Draft.Chain.nodup` — a walk comes to no block twice;
* `Draft.Creates` — the phis that are new, at most one for a variable in a block;
* `Draft.SearchesEnd`, `Draft.Searchable.searchesEnd` — walks, fillings, reads and sealings end;
* `Recording.searchable_run` — where all this holds.
-/

namespace Abacus.Lowering

open Abacus.Flow (Value Block Ty Inst Terminator Builder BlockInfo ValueInfo)

/-! ## Where searches end -/

/-- Edges come from blocks that exist, phis that wait exist and have types, and each cycle of the graph
has a block that is not sealed or has not just one predecessor. -/
structure Draft.Searchable (d : Draft) : Prop where
  fillable : d.Fillable
  registers : d.Registers
  acyclic : d.Acyclic

/-- Work that leaves the edges and the sealed blocks leaves cycles. -/
theorem Drafting.Steady.acyclic {α : Type} {work : Drafting α} (h : Steady work) {d : Draft}
    (hd : d.Acyclic) : (work.on d).2.Acyclic := by
  obtain ⟨hpreds, hsealed⟩ := h d
  have hsteps : (work.on d).2.StepsBack = d.StepsBack := by
    funext b q
    simp only [Draft.StepsBack, Variables.isSealed, hpreds, hsealed]
  intro b
  rw [hsteps]
  exact hd b

/-- What a search does to a draft, step by step: it walks, it gives phis operands, and to seal a block it
takes out the phis that wait for that. -/
inductive Draft.Searches (d : Draft) : Draft → Prop
  | walk (x : SymbolId) (b : Block) : Searches d ((Drafting.resolve x b).on d).2
  | operand (p : OpenPhi) (q : Block) (v : Value) : Searches d (d.addIncoming p.phi q v)
  | takeOut (b : Block) : Searches d { d with known :=
      { d.known with incomplete := d.known.incomplete.filter (·.block ≠ b) } }

namespace Draft.Searchable

variable {d d' : Draft}

/-- After a walk, however it has ended, the next one can begin. -/
theorem resolve (h : d.Searchable) (x : SymbolId) (b : Block) :
    ((Drafting.resolve x b).on d).2.Searchable where
  fillable := (Drafting.fillable_upkeep.resolve h.fillable x trivial).1
  registers :=
    ((Drafting.retains_upkeep (fun _ => False) d).resolve (.refl _ d) x trivial).1.registers h.registers
  acyclic := (Drafting.steady_habit.resolve x b).acyclic h.acyclic

/-- So it can after a phi has got an operand. -/
theorem addIncoming (h : d.Searchable) (p : OpenPhi) (q : Block) (v : Value) :
    (d.addIncoming p.phi q v).Searchable where
  fillable := ⟨h.fillable.toRooted.addIncoming .., h.fillable.typed⟩
  registers := ((Draft.Retains.refl (· = p.phi) d).addIncoming (.inl rfl)).registers h.registers
  acyclic := h.acyclic

/-- All drafts on the way are such that searches end. -/
theorem searches (h : d.Searchable) (hsteps : Relation.ReflTransGen Draft.Searches d d') :
    d'.Searchable := by
  induction hsteps with
  | refl => exact h
  | tail _ hstep ih =>
    cases hstep with
    | walk x b => exact ih.resolve x b
    | operand p q v => exact ih.addIncoming p q v
    | takeOut b =>
      exact ⟨ih.fillable.release b, fun p hp => ih.registers p (List.mem_of_mem_filter hp), ih.acyclic⟩

end Draft.Searchable

/-! ## Walks -/

namespace Draft

variable {d : Draft} {x : SymbolId} {b last : Block} {gone : List Block}

/-- Each block of a walk is the only predecessor of the one before. -/
theorem Chain.isChain (h : d.Chain x b gone last) : (gone ++ [last]).IsChain d.StepsBack := by
  induction gone generalizing b with
  | nil => exact .singleton _
  | cons c rest ih =>
    obtain ⟨rfl, -, hsealed, q, hq, hrest⟩ := h
    have hnext := ih hrest
    cases rest with
    | nil =>
      have hlast : q = last := hrest
      subst hlast
      exact List.isChain_cons_cons.2 ⟨⟨hsealed, hq⟩, hnext⟩
    | cons e rest =>
      obtain ⟨rfl, -⟩ := hrest
      exact List.isChain_cons_cons.2 ⟨⟨hsealed, hq⟩, hnext⟩

/-- A walk comes to no block twice, its end included. -/
theorem Chain.nodup (h : d.Chain x b gone last) (hacyclic : d.Acyclic) : (gone ++ [last]).Nodup := by
  have htrans : (gone ++ [last]).IsChain (Relation.TransGen d.StepsBack) :=
    h.isChain.imp fun _ _ hstep => .single hstep
  refine (List.isChain_iff_pairwise.1 htrans).imp ?_
  rintro c e hce rfl
  exact hacyclic c hce

end Draft

/-! ## Phis -/

/-- The phis `made` are all the values that are new in `d'`. Each of them stands for one of the variables
in a block that exists, and no two for the same variable in the same block. -/
structure Draft.Creates (d : Draft) (vars : List SymbolId) (made : List OpenPhi) (d' : Draft) : Prop where
  valueCount : d'.builder.valueCount = d.builder.valueCount + made.length
  numbers : made.map (·.phi.index) = List.range' d.builder.valueCount made.length
  owner : ∀ p ∈ made, d'.known.owner? p.phi = some p.var ∧
    (d'.builder.valueInfo p.phi).block = p.block
  vars : ∀ p ∈ made, p.var ∈ vars
  blocks : ∀ p ∈ made, p.block.index < d.builder.blockCount
  once : (made.map OpenPhi.site).Nodup

/-- For one variable there are no more new phis than blocks. -/
theorem Draft.Creates.count_le {d d' : Draft} {vars : List SymbolId} {made : List OpenPhi}
    (h : d.Creates vars made d') (x : SymbolId) :
    (made.filter (·.var = x)).length ≤ d.builder.blockCount := by
  have hnodup : ((made.filter (·.var = x)).map OpenPhi.block).Nodup := by
    have hsites : ((made.filter (·.var = x)).map OpenPhi.site).Nodup :=
      h.once.sublist (List.filter_sublist.map _)
    refine List.Nodup.map_on (fun p hp q hq hblock => ?_) (List.Nodup.of_map _ hsites)
    have hvar : p.site = q.site := by
      have hpx := of_decide_eq_true (List.mem_filter.1 hp).2
      have hqx := of_decide_eq_true (List.mem_filter.1 hq).2
      unfold OpenPhi.site
      rw [hpx, hqx, hblock]
    exact List.inj_on_of_nodup_map hsites hp hq hvar
  have hexists : ∀ c ∈ (made.filter (·.var = x)).map OpenPhi.block,
      c.index < d.builder.blockCount := by
    intro c hc
    obtain ⟨p, hp, rfl⟩ := List.mem_map.1 hc
    exact h.blocks p (List.mem_of_mem_filter hp)
  simpa using Draft.length_le_blockCount hnodup hexists

namespace Drafting

variable {d : Draft}

/-- Filling phis ends, and makes phis only for variables of those that it has started with. -/
theorem fillAll_creates (hd : d.Searchable) {jobs : List OpenPhi}
    (hjobs : ∀ p ∈ jobs, p.phi.index < d.builder.valueCount ∧ (d.known.type? p.var).isSome) :
    ∃ made d', on (fillAll jobs) d = (.ok (), d') ∧ d.Creates (jobs.map OpenPhi.var) made d' := by
  -- A search stays with the variables that it has started with, and these have types.
  let P : SymbolId → Block → Prop := fun x c =>
    x ∈ jobs.map OpenPhi.var ∧ c.index < d.builder.blockCount
  have hsearch : Search P d jobs :=
    { closed := fun hx _ _ hq => ⟨hx.1, hd.fillable.preds hq⟩
      served := fun p hp q hq => ⟨List.mem_map_of_mem hp, hd.fillable.preds hq⟩
      numbered := fun p hp => (hjobs p hp).1
      preds := hd.fillable.preds
      acyclic := hd.acyclic }
  have htyped : ¬ Untyped P d := by
    rintro ⟨x, c, ⟨hx, -⟩, -, hnone⟩
    obtain ⟨p, hp, rfl⟩ := List.mem_map.1 hx
    have hsome := (hjobs p hp).2
    rw [hnone] at hsome
    cases hsome
  obtain ⟨⟨⟩, d', hon, ⟨made, log, hstage⟩, -⟩ :=
    (goes_fillAll (Stage.start P d jobs) hsearch).ok htyped
  refine ⟨made, d', hon, hstage.outline.valueCount, hstage.outline.numbers, fun p hp => ?_,
    fun p hp => (hstage.bindings.stops p hp).1.1, fun p hp => (hstage.bindings.stops p hp).1.2,
    hstage.bindings.sites⟩
  obtain ⟨ty, -, hinfo⟩ := hstage.outline.new p hp
  exact ⟨hstage.owner?_of_mem hp, by rw [hinfo]⟩

end Drafting

/-! ## All searches -/

/-- Walks, fillings, reads and sealings end. A walk comes to no block twice. Filling phis makes at most
one further phi in each block for each of their variables. A read fails only for a variable without a
type, a sealing only for a block that is sealed already. -/
structure Draft.SearchesEnd (d : Draft) : Prop where
  walks : ∀ x b, ∃ gone last stop, d.walkFrom x b = (gone, stop) ∧ d.Chain x b gone last ∧
    d.EndsAt x last stop ∧ (gone ++ [last]).Nodup
  fills : ∀ jobs : List OpenPhi,
    (∀ p ∈ jobs, p.phi.index < d.builder.valueCount ∧ (d.known.type? p.var).isSome) →
      ∃ made d', (Drafting.fillAll jobs).on d = (.ok (), d') ∧ d.Creates (jobs.map OpenPhi.var) made d'
  reads : ∀ x b, (∃ v, ((Drafting.read x b).on d).1 = .ok v) ∨
    ∃ c, ((Drafting.read x b).on d).1 = .error (.ofDefect (.undeclared x c))
  seals : ∀ b, ((Drafting.sealBlock b).on d).1 = .ok () ∨
    ((Drafting.sealBlock b).on d).1 = .error (.ofDefect (.sealedTwice b))

theorem Draft.Searchable.searchesEnd {d : Draft} (hd : d.Searchable) : d.SearchesEnd where
  walks x b := by
    obtain ⟨last, hchain, hends⟩ :=
      Draft.walk_spec (show d.walk x _ b = d.walkFrom x b from rfl) (Draft.walkFrom_ends hd.acyclic x b)
    exact ⟨_, last, _, rfl, hchain, hends, hchain.nodup hd.acyclic⟩
  fills _ hjobs := Drafting.fillAll_creates hd hjobs
  reads x b := by
    rcases hread : (Drafting.read x b).on d with ⟨e | v, d'⟩
    · obtain ⟨-, htype, gone, c, hchain, hstop⟩ :=
        Drafting.eq_of_read_fails hd.fillable hd.acyclic hread
      rw [Drafting.read_fails htype hchain hstop hd.acyclic] at hread
      cases hread
      exact .inr ⟨c, rfl⟩
    · exact .inl ⟨v, rfl⟩
  seals b := by
    rw [Drafting.on_sealBlock]
    split
    · exact .inr rfl
    · obtain ⟨d', hfill⟩ :=
        Drafting.fillAll_incompleteOf_ok hd.fillable hd.registers hd.acyclic b
      rw [hfill]
      exact .inl rfl

namespace Recording

/-- Steps in existing blocks lead to drafts in which searches end, unless there is a cycle of sealed
blocks with one predecessor each. -/
theorem searchable_run {name : String} {params : List Ty} {result : Ty} {ops : List Op}
    (hops : Keeps Within (start name params result) ops)
    (hacyclic : ((start name params result).run ops).draft.Acyclic) :
    ((start name params result).run ops).draft.Searchable :=
  ⟨fillable_run (fillable_start name params result) hops, registers_run nofun, hacyclic⟩

end Recording

end Abacus.Lowering
