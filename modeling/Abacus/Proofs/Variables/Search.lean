import Mathlib.Algebra.Ring.Nat
import Mathlib.Data.List.Perm.Subperm
import Mathlib.Logic.Relation
import Abacus.Proofs.Variables.Resolution

/-!
# The search for a variable

`Drafting.resolve`, `fill`, `read` and `sealBlock` keep the bookkeeping of phis and stay within what
a search may change.

* `resolve_spec`, `fill_spec`, `read_spec`, `sealBlock_spec` — what holds when they succeed;
* `resolve_total`, `fill_total`, `read_total`, `sealBlock_total` — they succeed unless the variable
  has no type or the graph has a cycle of sealed blocks with one predecessor each.

The induction of `fill_spec` is on the rounds. The rounds suffice because every phi that a search
makes binds its variable in one more block (`Draft.unbound`).
-/

namespace Abacus.Lowering

open Abacus.Flow (Value Block Ty Inst Terminator Builder BlockInfo ValueInfo)

/-! ## Running the work on a draft -/

namespace Drafting

theorem on_bind {α β : Type} (work : Drafting α) (next : α → Drafting β) (d : Draft) :
    on (work >>= next) d = match on work d with
      | (.ok a, d') => on (next a) d'
      | (.error e, d') => (.error e, d') := by
  simp only [on]
  show (ExceptT.bind work next).run.run d = _
  unfold ExceptT.bind ExceptT.mk ExceptT.run StateT.run ExceptT.bindCont
  show StateT.bind _ _ _ = _
  unfold StateT.bind
  show (match work d with | (a, s) => _) = _
  rcases work d with ⟨_ | _, _⟩ <;> rfl

@[simp] theorem on_pure {α : Type} (a : α) (d : Draft) : on (pure a) d = (.ok a, d) := rfl

@[simp] theorem on_throw {α : Type} (e : LoweringError) (d : Draft) :
    on (throw e : Drafting α) d = (.error e, d) := rfl

@[simp] theorem on_get (d : Draft) : on get d = (.ok d, d) := rfl

@[simp] theorem on_note (change : Variables → Variables) (d : Draft) :
    on (note change) d = (.ok (), { d with known := change d.known }) := rfl

@[simp] theorem on_build {α : Type} (change : Builder → α × Builder) (d : Draft) :
    on (build change) d =
      (.ok (change d.builder).1, { d with builder := (change d.builder).2 }) := rfl

@[simp] theorem on_rebuild (change : Builder → Builder) (d : Draft) :
    on (rebuild change) d = (.ok (), { d with builder := change d.builder }) := rfl

/-- The first step of work that succeeds has succeeded. -/
theorem on_bind_ok {α β : Type} {work : Drafting α} {next : α → Drafting β} {d d' : Draft} {b : β}
    (h : on (work >>= next) d = (.ok b, d')) :
    ∃ a d₁, on work d = (.ok a, d₁) ∧ on (next a) d₁ = (.ok b, d') := by
  rw [on_bind] at h
  rcases hwork : on work d with ⟨e | a, d₁⟩
  · simp [hwork] at h
  · exact ⟨a, d₁, rfl, by simpa [hwork] using h⟩

end Drafting

/-! ## The search itself -/

namespace Drafting

variable {P : SymbolId → Block → Prop} {d d' : Draft} {x : SymbolId} {b : Block}

theorem on_newPhi (d : Draft) (x : SymbolId) (b : Block) :
    on (newPhi x b) d = match d.known.type? x with
      | none => (.error (.ofDefect (.undeclared x b)), d)
      | some ty => (.ok ⟨d.builder.valueCount⟩,
          ⟨(d.builder.phi b ty).2, d.known.own ⟨d.builder.valueCount⟩ x⟩) := by
  unfold newPhi
  rw [on_bind, on_get]
  dsimp only
  cases d.known.type? x with
  | none => rfl
  | some ty => simp only [on_bind, on_build, on_note, on_pure, Builder.phi_fst]

/-- What a search does, by the way the walk ends. -/
theorem on_resolve (d : Draft) (x : SymbolId) (b : Block) :
    on (resolve x b) d = match d.walkFrom x b with
      | (gone, .bound v) => (.ok (v, []), d.bindAll x gone v)
      | (gone, .unsealed stop) => match d.known.type? x with
        | none => (.error (.ofDefect (.undeclared x stop)), d)
        | some ty => (.ok (⟨d.builder.valueCount⟩, []),
            d.settle x stop ty [⟨x, stop, ⟨d.builder.valueCount⟩⟩] (gone ++ [stop]))
      | (gone, .merge stop) => match d.known.type? x with
        | none => (.error (.ofDefect (.undeclared x stop)), d)
        | some ty => (.ok (⟨d.builder.valueCount⟩, [⟨x, stop, ⟨d.builder.valueCount⟩⟩]),
            d.settle x stop ty [] (stop :: gone))
      | (_, .endless) => (.error (.ofDefect (.endless x b)), d) := by
  unfold resolve
  rw [on_bind, on_get]
  dsimp only
  rcases hwalk : d.walkFrom x b with ⟨gone, v | stop | stop | _⟩
  · simp only [on_bind, on_note, on_pure, Draft.bindAll]
  · simp only [on_bind, on_newPhi]
    cases d.known.type? x with
    | none => rfl
    | some ty => simp only [on_note, on_pure, Draft.settle, Draft.placePhi, Draft.bindAll, Variables.own]
  · simp only [on_bind, on_newPhi]
    cases d.known.type? x with
    | none => rfl
    | some ty =>
        simp only [on_note, on_pure, Draft.settle, Draft.placePhi, Draft.bindAll, Variables.own,
          List.append_nil]
  · rfl

end Drafting

namespace Drafting

variable {P : SymbolId → Block → Prop} {d d' : Draft} {x : SymbolId} {b : Block}

/-- What a search goes through: backwards from blocks of `P`, through sealed blocks in which the
variable has no value, it stays in `P`, and the blocks of `P` exist. -/
structure Region (P : SymbolId → Block → Prop) (d : Draft) : Prop where
  closed : ∀ {x c q}, P x c → d.known.value? x c = none → d.known.isSealed c = true →
    q ∈ d.builder.preds c → P x q
  exists' : ∀ {x c}, P x c → c.index < d.builder.blockCount

theorem Region.grows (h : Region P d) (hgrows : d.Grows P d') : Region P d' where
  closed hc hnone hsealed hq := by
    rw [hgrows.isSealed] at hsealed
    rw [hgrows.preds] at hq
    exact h.closed hc (hgrows.unbound hnone) hsealed hq
  exists' hc := by
    rw [hgrows.blockCount]
    exact h.exists' hc

/-- The phis to be filled have predecessors that the search may go through. -/
def Served (P : SymbolId → Block → Prop) (d : Draft) (pending : List OpenPhi) : Prop :=
  ∀ p ∈ pending, ∀ q ∈ d.builder.preds p.block, P p.var q

theorem Served.grows {pending : List OpenPhi} (h : Served P d pending) (hgrows : d.Grows P d') :
    Served P d' pending := by
  intro p hp q hq
  rw [hgrows.preds] at hq
  exact h p hp q hq

/-- What a search that succeeds has found and left behind. -/
structure Found (P : SymbolId → Block → Prop) (d d' : Draft) (x : SymbolId) (b : Block) (v : Value)
    (made : List OpenPhi) : Prop where
  grows : d.Grows P d'
  value : d'.known.value? x b = some v
  var : ∀ p ∈ made, p.var = x
  served : Served P d' made
  coherent : ∀ {pending front? closing?}, d.Coherent ⟨pending, front?, closing?⟩ →
    d'.Coherent ⟨made ++ pending, front?, closing?⟩

theorem resolve_spec {agenda : Draft.Agenda} (hregion : Region P d) (hd : d.Coherent agenda)
    (hb : P x b) {v : Value} {made : List OpenPhi}
    (h : on (resolve x b) d = (.ok (v, made), d')) : Found P d d' x b v made := by
  have howner : ∀ u y, d.known.owner? u = some y → u.index < d.builder.valueCount :=
    fun u y hu => (hd.owned hu).1
  rw [on_resolve] at h
  rcases hwalk : d.walkFrom x b with ⟨gone, u | stop | stop | _⟩
  case bound =>
    rw [hwalk] at h
    cases h
    obtain ⟨last, hchain, hends⟩ := Draft.walk_spec hwalk (by simp)
    obtain ⟨-, hall⟩ := hchain.all (fun _ _ => hregion.closed) hb
    have hnew : ∀ c ∈ gone, d.known.value? x c = none := fun c hc => (hchain.step hc).1
    refine ⟨.bindAll hchain hends hall, ?_, by simp, by simp [Served], fun hc => hc.bindAll hnew⟩
    rw [Draft.value?_bindAll]
    rcases hchain.start_mem with hmem | rfl
    · rw [if_pos ⟨rfl, hmem⟩]
    · split
      · rfl
      · exact hends
  case unsealed =>
    rw [hwalk] at h
    obtain ⟨last, hchain, rfl, hnone, hopen⟩ := Draft.walk_spec hwalk (by simp)
    obtain ⟨hlast, hall⟩ := hchain.all (fun _ _ => hregion.closed) hb
    dsimp only at h
    split at h
    · cases h
    next ty htype =>
    cases h
    have hblocks : ∀ c, c ∈ gone ++ [stop] ↔ c ∈ gone ∨ c = stop := by simp
    have hP : ∀ c ∈ gone ++ [stop], P x c := by
      intro c hc
      rcases (hblocks c).1 hc with hc | rfl
      · exact hall c hc
      · exact hlast
    have hnew : ∀ c ∈ gone ++ [stop], d.known.value? x c = none := by
      intro c hc
      rcases (hblocks c).1 hc with hc | rfl
      · exact (hchain.step hc).1
      · exact hnone
    refine ⟨.settle hchain hblocks hnone (hregion.exists' hlast) hP howner (by simp [hopen])
      (by simp), ?_, by simp, by simp [Served], fun hc => hc.settle hnew (by simp)
      (hregion.exists' hlast) htype (.inl ⟨rfl, rfl, hopen⟩)⟩
    rw [Draft.value?_settle, if_pos ⟨rfl, (hblocks b).2 hchain.start_mem⟩]
  case merge =>
    rw [hwalk] at h
    obtain ⟨last, hchain, rfl, hnone, hsealed, hmerge⟩ := Draft.walk_spec hwalk (by simp)
    obtain ⟨hlast, hall⟩ := hchain.all (fun _ _ => hregion.closed) hb
    dsimp only at h
    split at h
    · cases h
    next ty htype =>
    cases h
    have hblocks : ∀ c, c ∈ stop :: gone ↔ c ∈ gone ∨ c = stop := by simp [or_comm]
    have hP : ∀ c ∈ stop :: gone, P x c := by
      intro c hc
      rcases (hblocks c).1 hc with hc | rfl
      · exact hall c hc
      · exact hlast
    have hnew : ∀ c ∈ stop :: gone, d.known.value? x c = none := by
      intro c hc
      rcases (hblocks c).1 hc with hc | rfl
      · exact (hchain.step hc).1
      · exact hnone
    refine ⟨.settle hchain hblocks hnone (hregion.exists' hlast) hP howner (fun _ => hmerge)
      (by simp), ?_, by simp, ?_, fun hc => hc.settle hnew (by simp)
      (hregion.exists' hlast) htype (.inr ⟨rfl, rfl, hsealed⟩)⟩
    · rw [Draft.value?_settle, if_pos ⟨rfl, (hblocks b).2 hchain.start_mem⟩]
    · intro p hp q hq
      rw [List.mem_singleton.1 hp] at hq ⊢
      rw [Draft.preds_settle] at hq
      exact hregion.closed hlast hnone hsealed hq
  case endless =>
    rw [hwalk] at h
    cases h

/-! ## Giving phis their operands -/


end Drafting

/-! ## Giving phis their operands -/

namespace Drafting

variable {P : SymbolId → Block → Prop} {d d' : Draft} {closing? : Option Block}

theorem fillFrom_spec {p : OpenPhi} {q : Block} {later later' : List OpenPhi} {done : List Block}
    (hregion : Region P d) (hd : d.Coherent ⟨later, some (p, done), closing?⟩)
    (hserved : Served P d later) (hq : P p.var q)
    (h : on (fillFrom p later q) d = (.ok later', d')) :
    d.Grows P d' ∧ d'.Coherent ⟨later', some (p, done ++ [q]), closing?⟩ ∧
      Served P d' later' := by
  obtain ⟨⟨v, made⟩, d₁, hresolve, h⟩ := on_bind_ok h
  have hfound := resolve_spec hregion hd hq hresolve
  rw [on_bind, on_rebuild] at h
  cases h
  have hd₁ : d₁.Coherent ⟨made ++ later, some (p, done), closing?⟩ := hfound.coherent hd
  obtain ⟨howner, -⟩ := hd₁.waiting p (by simp [Draft.Agenda.phis])
  have hgrows : d₁.Grows P (d₁.addIncoming p.phi q v) :=
    .addIncoming P (Option.isSome_iff_exists.2 ⟨_, howner⟩)
  refine ⟨hfound.grows.trans hgrows, hd₁.addIncoming hfound.value, ?_⟩
  intro o ho
  rcases List.mem_append.1 ho with ho | ho
  · exact (hfound.served.grows hgrows) o ho
  · exact (hserved.grows (hfound.grows.trans hgrows)) o ho

theorem foldlM_fillFrom_spec {p : OpenPhi} {preds : List Block} {later later' : List OpenPhi}
    {done : List Block} (hregion : Region P d)
    (hd : d.Coherent ⟨later, some (p, done), closing?⟩) (hserved : Served P d later)
    (hpreds : ∀ q ∈ preds, P p.var q)
    (h : on (preds.foldlM (fillFrom p) later) d = (.ok later', d')) :
    d.Grows P d' ∧ d'.Coherent ⟨later', some (p, done ++ preds), closing?⟩ ∧
      Served P d' later' := by
  induction preds generalizing d later done with
  | nil =>
      cases h
      exact ⟨Draft.Grows.rfl' P _, by rw [List.append_nil]; exact hd, hserved⟩
  | cons q rest ih =>
      rw [List.foldlM_cons] at h
      obtain ⟨mid, d₁, hfirst, h⟩ := on_bind_ok h
      obtain ⟨hgrows, hd₁, hserved₁⟩ :=
        fillFrom_spec hregion hd hserved (hpreds q (by simp)) hfirst
      obtain ⟨hgrows', hd', hserved'⟩ := ih (hregion.grows hgrows) hd₁ hserved₁
        (fun q hq => hpreds q (List.mem_cons_of_mem _ hq)) h
      rw [List.append_assoc] at hd'
      exact ⟨hgrows.trans hgrows', hd', hserved'⟩

theorem fill_spec {rounds : Nat} {pending : List OpenPhi} (hregion : Region P d)
    (hd : d.Coherent ⟨pending, none, closing?⟩) (hserved : Served P d pending)
    (h : on (fill rounds pending) d = (.ok (), d')) :
    d.Grows P d' ∧ d'.Coherent ⟨[], none, closing?⟩ := by
  induction rounds generalizing d pending with
  | zero =>
      cases pending with
      | nil =>
          cases h
          exact ⟨Draft.Grows.rfl' P _, hd⟩
      | cons p rest => cases h
  | succ rounds ih =>
      cases pending with
      | nil =>
          cases h
          exact ⟨Draft.Grows.rfl' P _, hd⟩
      | cons p rest =>
          obtain ⟨_, _, hget, h⟩ := on_bind_ok h
          cases hget
          obtain ⟨later, d₁, hloop, h⟩ := on_bind_ok h
          obtain ⟨hgrows, hd₁, hserved₁⟩ := foldlM_fillFrom_spec hregion hd.take
            (fun o ho => hserved o (List.mem_cons_of_mem _ ho)) (hserved p (by simp)) hloop
          rw [List.nil_append, ← hgrows.preds] at hd₁
          obtain ⟨hgrows', hd'⟩ := ih (hregion.grows hgrows) hd₁.drop hserved₁ h
          exact ⟨hgrows.trans hgrows', hd'⟩

theorem fillAll_spec {pending : List OpenPhi} (hregion : Region P d)
    (hd : d.Coherent ⟨pending, none, closing?⟩) (hserved : Served P d pending)
    (h : on (fillAll pending) d = (.ok (), d')) :
    d.Grows P d' ∧ d'.Coherent ⟨[], none, closing?⟩ := by
  obtain ⟨_, _, hget, h⟩ := on_bind_ok h
  cases hget
  exact fill_spec hregion hd hserved h

/-- A read that succeeds gives what the block then has for the variable. -/
theorem read_spec {x : SymbolId} {b : Block} {v : Value} (hregion : Region P d)
    (hd : d.Coherent .none) (hb : P x b) (h : on (read x b) d = (.ok v, d')) :
    d.Grows P d' ∧ d'.Coherent .none ∧ d'.known.value? x b = some v := by
  obtain ⟨⟨v', made⟩, d₁, hresolve, h⟩ := on_bind_ok h
  obtain ⟨⟨⟩, d₂, hfill, h⟩ := on_bind_ok h
  cases h
  have hfound := resolve_spec hregion hd hb hresolve
  have hd₁ : d₁.Coherent ⟨made ++ [], none, none⟩ := hfound.coherent hd
  rw [List.append_nil] at hd₁
  obtain ⟨hgrows, hd₂⟩ :=
    fillAll_spec (hregion.grows hfound.grows) hd₁ hfound.served hfill
  exact ⟨hfound.grows.trans hgrows, hd₂, hgrows.value hfound.value⟩

/-! ## Sealing -/

/-- The draft in which the phis of a block no longer wait. -/
def release (d : Draft) (b : Block) : Draft :=
  { d with known := { d.known with incomplete := d.known.incomplete.filter (·.block ≠ b) } }

/-- The draft with a block sealed. -/
def close (d : Draft) (b : Block) : Draft :=
  { d with known := { d.known with sealedBlocks := d.known.sealedBlocks.insert b } }

theorem isSealed_close (d : Draft) (b c : Block) :
    (close d b).known.isSealed c = (decide (c = b) || d.known.isSealed c) := by
  show (d.known.sealedBlocks.insert b).contains c = _
  rw [Std.TreeSet.contains_insert]
  by_cases h : c = b
  · simp [h]
  · have h' : compare b c ≠ .eq := fun e => h (Std.LawfulEqOrd.eq_of_compare e).symm
    simp [h, h', Variables.isSealed]

theorem release_coherent (hd : d.Coherent .none) (b : Block) :
    (release d b).Coherent ⟨(d.known.incompleteOf b).reverse, none, some b⟩ := by
  have hmem : ∀ p, p ∈ (release d b).known.incomplete ++ (d.known.incompleteOf b).reverse ↔
      p ∈ d.known.incomplete := by
    intro p
    simp only [release, Variables.incompleteOf, List.mem_append, List.mem_filter,
      List.mem_reverse, decide_eq_true_eq]
    tauto
  constructor
  case owned => exact hd.owned
  case stage =>
    intro v x hv
    rcases hd.stage hv with ⟨hw, hs⟩ | ⟨hs, hp⟩
    · by_cases hb : (d.builder.valueInfo v).block = b
      · refine .inr ⟨.inr (by rw [← hb]; rfl), .inl ?_⟩
        exact List.mem_reverse.2 (List.mem_filter.2 ⟨hw, decide_eq_true hb⟩)
      · refine .inl ⟨?_, hs⟩
        exact List.mem_filter.2 ⟨hw, decide_eq_true hb⟩
    · rcases hs with hs | hs
      · rcases hp with hp | hf
        · simp [Draft.Agenda.phis, Draft.Agenda.none] at hp
        · exact .inr ⟨.inl hs, .inr hf⟩
      · simp [Draft.Agenda.none] at hs
  case waiting =>
    intro p hp
    exact hd.waiting p (List.mem_append_left _ ((hmem p).1 hp))
  case empty =>
    intro p hp
    exact hd.empty p (List.mem_append_left _ ((hmem p).1 hp))
  case front => simp
  case unsealed => exact fun p hp => hd.unsealed p (List.mem_filter.1 hp).1
  case nodup =>
    have hperm : ((release d b).known.incomplete ++ (d.known.incompleteOf b).reverse).Perm
        d.known.incomplete := by
      refine (List.Perm.append_left _ (List.reverse_perm _)).trans ?_
      refine List.perm_append_comm.trans ?_
      have := List.filter_append_perm (fun p : OpenPhi => decide (p.block = b)) d.known.incomplete
      refine List.Perm.trans ?_ this
      simp [release, Variables.incompleteOf]
    have hnodup := hd.nodup
    simp only [Draft.Agenda.phis, Draft.Agenda.none, Option.map_none, Option.toList_none,
      List.append_nil] at hnodup
    exact ((hperm.map OpenPhi.phi).nodup_iff).2 hnodup
  case exists_of_sealed => exact hd.exists_of_sealed

/-- A block is sealed once the phis that waited for it have their operands. -/
theorem close_coherent {b : Block} (hd : d.Coherent ⟨[], none, some b⟩)
    (hb : b.index < d.builder.blockCount) (hnone : ∀ p ∈ d.known.incomplete, p.block ≠ b) :
    (close d b).Coherent .none where
  owned := hd.owned
  stage {v x} hv := by
    rw [isSealed_close, Bool.or_eq_false_iff, Bool.or_eq_true_iff]
    rcases hd.stage hv with ⟨hw, hs⟩ | ⟨hs, hp⟩
    · exact .inl ⟨hw, decide_eq_false (hnone _ hw), hs⟩
    · refine .inr ⟨.inl ?_, hp⟩
      rcases hs with hs | hs
      · exact .inr hs
      · exact .inl (decide_eq_true (Option.some.inj hs).symm)
  waiting := hd.waiting
  empty := hd.empty
  front := by simp [Draft.Agenda.none]
  unsealed p hp := by
    rw [isSealed_close]
    simp [hnone p hp, hd.unsealed p hp]
  nodup := hd.nodup
  exists_of_sealed {c} hc := by
    rw [isSealed_close] at hc
    rcases Bool.or_eq_true_iff.1 hc with hc | hc
    · rw [of_decide_eq_true hc]
      exact hb
    · exact hd.exists_of_sealed hc

/-- Sealing a block grows the draft from where the phis of the block no longer wait, and then
closes the block. -/
theorem sealBlock_spec {b : Block} (hregion : Region P (release d b)) (hd : d.Coherent .none)
    (hserved : Served P d (d.known.incompleteOf b)) (hb : b.index < d.builder.blockCount)
    (hbound : ∀ x, P x b → (d.known.value? x b).isSome)
    (h : on (sealBlock b) d = (.ok (), d')) :
    ∃ d₁, d.known.isSealed b = false ∧ (release d b).Grows P d₁ ∧ d' = close d₁ b ∧
      d'.Coherent .none := by
  obtain ⟨_, _, hget, h⟩ := on_bind_ok h
  cases hget
  cases hs : d.known.isSealed b with
  | true =>
      simp only [hs, if_true] at h
      obtain ⟨_, _, hthrow, -⟩ := on_bind_ok h
      cases hthrow
  | false =>
      simp only [hs, Bool.false_eq_true, if_false] at h
      obtain ⟨_, _, hnote, h⟩ := on_bind_ok h
      cases hnote
      obtain ⟨⟨⟩, d₁, hfill, h⟩ := on_bind_ok h
      cases h
      obtain ⟨hgrows, hd₁⟩ := fillAll_spec hregion (release_coherent hd b)
        (fun p hp => hserved p (List.mem_reverse.1 hp)) hfill
      refine ⟨d₁, rfl, hgrows, rfl, close_coherent hd₁ ?_ ?_⟩
      · rw [hgrows.blockCount]
        exact hb
      · intro p hp he
        rcases hgrows.newIncomplete p hp with hp | ⟨hnone, hP⟩
        · simpa [he] using (List.mem_filter.1 hp).2
        · have := hbound p.var (he ▸ hP)
          rw [he] at hnone
          have hnone' : d.known.value? p.var b = none := hnone
          simp [hnone'] at this

end Drafting

/-! ## Nothing goes on for ever -/

namespace Draft

/-- One step backwards, from a sealed block to its only predecessor. -/
def StepsBack (d : Draft) (b q : Block) : Prop :=
  d.known.isSealed b = true ∧ d.builder.preds b = [q]

/-- No cycle consists of sealed blocks with one predecessor each. -/
def Acyclic (d : Draft) : Prop := ∀ b, ¬ Relation.TransGen d.StepsBack b b

theorem Grows.acyclic {P : SymbolId → Block → Prop} {d d' : Draft} (h : d.Grows P d')
    (hd : d.Acyclic) : d'.Acyclic := by
  have hsteps : d'.StepsBack = d.StepsBack := by
    funext b q
    simp only [StepsBack, h.isSealed, h.preds]
  intro b
  rw [hsteps]
  exact hd b

/-- A block from which a step goes back exists. -/
theorem StepsBack.lt {d : Draft} {b q : Block} (h : d.StepsBack b q) :
    b.index < d.builder.blockCount := by
  by_contra hb
  have hpreds : d.builder.preds b = [] := by
    show (d.builder.info b).preds = []
    rw [Builder.info, Flow.Function.block_of_le (Nat.not_lt.1 hb)]
    rfl
  simpa [hpreds] using h.2

/-- A walk that does not end has gone back one block with each step. -/
theorem walk_endless {d : Draft} {x : SymbolId} {steps : Nat} {b : Block} {gone : List Block}
    (h : d.walk x steps b = (gone, .endless)) :
    gone.length = steps ∧ gone.IsChain d.StepsBack ∧ (∀ c ∈ gone, ∃ q, d.StepsBack c q) ∧
      ∀ c ∈ gone.head?, c = b := by
  induction steps generalizing b gone with
  | zero =>
      rw [walk] at h
      cases h
      simp
  | succ steps ih =>
      rw [walk] at h
      split at h
      · cases h
      · split at h
        · next hsealed =>
          split at h
          · next q hq =>
            rcases hrest : d.walk x steps q with ⟨gone', stop⟩
            rw [hrest] at h
            cases h
            obtain ⟨hlength, hchain, hall, hhead⟩ := ih hrest
            refine ⟨by simp [hlength], ?_, ?_, by simp⟩
            · cases gone' with
              | nil => exact .singleton _
              | cons c rest =>
                  have hc : c = q := hhead c rfl
                  exact List.isChain_cons_cons.2 ⟨⟨hsealed, hc ▸ hq⟩, hchain⟩
            · intro c hc
              rcases List.mem_cons.1 hc with rfl | hc
              · exact ⟨q, hsealed, hq⟩
              · exact hall c hc
          · cases h
        · cases h

/-- Blocks that exist, each once, are not more than there are. -/
theorem length_le_blockCount {b : Builder} {blocks : List Block} (hnodup : blocks.Nodup)
    (hexists : ∀ c ∈ blocks, c.index < b.blockCount) : blocks.length ≤ b.blockCount := by
  have hsub : blocks ⊆ (List.range b.blockCount).map Block.mk := by
    intro c hc
    exact List.mem_map.2 ⟨c.index, List.mem_range.2 (hexists c hc), rfl⟩
  have := (hnodup.subperm hsub).length_le
  simpa using this

/-- Without a cycle every walk ends. -/
theorem walkFrom_ends {d : Draft} (hacyclic : d.Acyclic) (x : SymbolId) (b : Block) :
    (d.walkFrom x b).2 ≠ .endless := by
  intro hend
  have hwalk : d.walk x (d.builder.blockCount + 1) b = ((d.walkFrom x b).1, .endless) :=
    Prod.ext rfl hend
  obtain ⟨hlength, hchain, hall, -⟩ := walk_endless hwalk
  have htrans : (d.walkFrom x b).1.IsChain (Relation.TransGen d.StepsBack) :=
    hchain.imp fun _ _ h => .single h
  have hnodup : (d.walkFrom x b).1.Nodup := by
    refine (List.isChain_iff_pairwise.1 htrans).imp ?_
    rintro c e hce rfl
    exact hacyclic c hce
  have := length_le_blockCount hnodup fun c hc => (hall c hc).elim fun _ h => h.lt
  omega

/-- The number of blocks in which a variable has no value. -/
def unbound (d : Draft) (x : SymbolId) : Nat :=
  (List.range d.builder.blockCount).countP fun i => (d.known.value? x ⟨i⟩).isNone

theorem unbound_le (d : Draft) (x : SymbolId) : d.unbound x ≤ d.builder.blockCount := by
  have := List.countP_le_length (l := List.range d.builder.blockCount)
    (p := fun i => (d.known.value? x ⟨i⟩).isNone)
  simpa [unbound] using this

/-- Every binding and every block stays. -/
structure Extends (d d' : Draft) : Prop where
  value : ∀ {x c r}, d.known.value? x c = some r → d'.known.value? x c = some r
  blockCount : d'.builder.blockCount = d.builder.blockCount

theorem Grows.extension {P : SymbolId → Block → Prop} {d d' : Draft} (h : d.Grows P d') :
    d.Extends d' := ⟨h.value, h.blockCount⟩

namespace Extends

variable {d d₁ d' : Draft}

theorem rfl' (d : Draft) : d.Extends d := ⟨fun h => h, rfl⟩

theorem trans (h : d.Extends d₁) (h' : d₁.Extends d') : d.Extends d' :=
  ⟨fun hr => h'.value (h.value hr), h'.blockCount.trans h.blockCount⟩

theorem eq_none (h : d.Extends d') {x : SymbolId} {c : Block}
    (hnone : d'.known.value? x c = none) : d.known.value? x c = none :=
  Option.eq_none_iff_forall_not_mem.2 fun r hr => by simpa [hnone] using h.value hr

theorem unbound_le (h : d.Extends d') (x : SymbolId) : d'.unbound x ≤ d.unbound x := by
  unfold Draft.unbound
  rw [h.blockCount]
  refine List.countP_mono_left fun i _ hi => ?_
  simpa using h.eq_none (by simpa using hi)

end Extends

theorem countP_lt {α : Type} {p q : α → Bool} {l : List α} (h : ∀ a ∈ l, p a → q a) {a : α}
    (ha : a ∈ l) (hq : q a = true) (hp : p a = false) : l.countP p < l.countP q := by
  obtain ⟨front, back, rfl⟩ := List.append_of_mem ha
  have hfront : front.countP p ≤ front.countP q :=
    List.countP_mono_left fun c hc => h c (by simp [hc])
  have hback : back.countP p ≤ back.countP q :=
    List.countP_mono_left fun c hc => h c (by simp [hc])
  simp only [List.countP_append, List.countP_cons, hq, hp, if_true, Bool.false_eq_true, if_false]
  omega

/-- A binding more leaves fewer blocks without a value. -/
theorem Extends.unbound_lt {d d' : Draft} (h : d.Extends d') {x : SymbolId} {c : Block}
    (hc : c.index < d.builder.blockCount) (hnone : d.known.value? x c = none)
    (hsome : (d'.known.value? x c).isSome) : d'.unbound x < d.unbound x := by
  unfold Draft.unbound
  rw [h.blockCount]
  refine countP_lt (fun i _ hi => ?_) (List.mem_range.2 hc) (by simp [hnone]) ?_
  · simpa using h.eq_none (by simpa using hi)
  · simpa [Option.isSome_iff_ne_none] using hsome

/-- The number of blocks without a value, over some variables. -/
def unboundIn (d : Draft) (vars : List SymbolId) : Nat := (vars.map d.unbound).sum

theorem unboundIn_le (d : Draft) (vars : List SymbolId) :
    d.unboundIn vars ≤ vars.length * d.builder.blockCount := by
  unfold unboundIn
  induction vars with
  | nil => simp
  | cons x rest ih =>
      have := d.unbound_le x
      simp only [List.map_cons, List.sum_cons, List.length_cons, Nat.succ_mul]
      omega

/-- What a search saves for one of some variables it saves for all of them. -/
theorem Extends.unboundIn_add_le {d d' : Draft} (h : d.Extends d') {x : SymbolId}
    {vars : List SymbolId} (hx : x ∈ vars) {made : Nat}
    (hmade : made + d'.unbound x ≤ d.unbound x) :
    made + d'.unboundIn vars ≤ d.unboundIn vars := by
  have hall : ∀ vars : List SymbolId, d'.unboundIn vars ≤ d.unboundIn vars := by
    intro vars
    induction vars with
    | nil => exact Nat.le_refl _
    | cons y rest ih => exact Nat.add_le_add (h.unbound_le y) ih
  obtain ⟨front, back, rfl⟩ := List.append_of_mem hx
  have hfront := hall front
  have hback := hall back
  simp only [unboundIn, List.map_append, List.map_cons, List.sum_append, List.sum_cons] at *
  omega

end Draft

namespace Drafting

variable {P : SymbolId → Block → Prop} {d : Draft} {closing? : Option Block}

theorem resolve_total {agenda : Draft.Agenda} {x : SymbolId} {b : Block} (hregion : Region P d)
    (hd : d.Coherent agenda) (hb : P x b) (hacyclic : d.Acyclic)
    (htype : (d.known.type? x).isSome) :
    ∃ v made d', on (resolve x b) d = (.ok (v, made), d') ∧
      made.length + d'.unbound x ≤ d.unbound x := by
  obtain ⟨ty, hty⟩ := Option.isSome_iff_exists.1 htype
  have hends := Draft.walkFrom_ends hacyclic x b
  rcases hwalk : d.walkFrom x b with ⟨gone, u | stop | stop | _⟩
  case bound =>
    have hok := on_resolve d x b
    simp only [hwalk] at hok
    exact ⟨_, _, _, hok, by
      simpa using (resolve_spec hregion hd hb hok).grows.extension.unbound_le x⟩
  case unsealed =>
    have hok := on_resolve d x b
    simp only [hwalk, hty] at hok
    exact ⟨_, _, _, hok, by
      simpa using (resolve_spec hregion hd hb hok).grows.extension.unbound_le x⟩
  case merge =>
    have hok := on_resolve d x b
    simp only [hwalk, hty] at hok
    obtain ⟨last, hchain, rfl, hnone, hsealed, -⟩ := Draft.walk_spec hwalk (by simp)
    have hgrows := (resolve_spec hregion hd hb hok).grows
    have hlt := hgrows.extension.unbound_lt (hd.exists_of_sealed hsealed) hnone
      (by rw [Draft.value?_settle, if_pos ⟨rfl, by simp⟩]; rfl)
    refine ⟨_, _, _, hok, ?_⟩
    simp only [List.length_singleton]
    omega
  case endless => exact absurd (by rw [hwalk]) hends

theorem fillFrom_total {p : OpenPhi} {q : Block} {later : List OpenPhi} {done : List Block}
    {vars : List SymbolId} (hregion : Region P d)
    (hd : d.Coherent ⟨later, some (p, done), closing?⟩) (hq : P p.var q) (hacyclic : d.Acyclic)
    (hvars : ∀ o ∈ p :: later, o.var ∈ vars) :
    ∃ later' d', on (fillFrom p later q) d = (.ok later', d') ∧ (∀ o ∈ later', o.var ∈ vars) ∧
      later'.length + d'.unboundIn vars ≤ later.length + d.unboundIn vars := by
  obtain ⟨howner, -⟩ := hd.waiting p (by simp [Draft.Agenda.phis])
  obtain ⟨-, -, -, htype, -⟩ := hd.owned howner
  obtain ⟨v, made, d₁, hok, hcost⟩ :=
    resolve_total hregion hd hq hacyclic (by rw [htype]; rfl)
  have hfound := resolve_spec hregion hd hq hok
  have hvar := hvars p (by simp)
  refine ⟨made ++ later, d₁.addIncoming p.phi q v, ?_, ?_, ?_⟩
  · simp only [fillFrom, on_bind, hok, on_rebuild, on_pure, Draft.addIncoming]
  · intro o ho
    rcases List.mem_append.1 ho with ho | ho
    · rw [hfound.var o ho]
      exact hvar
    · exact hvars o (List.mem_cons_of_mem _ ho)
  · have hsaved := hfound.grows.extension.unboundIn_add_le hvar hcost
    rw [List.length_append]
    have hsame : (d₁.addIncoming p.phi q v).unboundIn vars = d₁.unboundIn vars := rfl
    omega

theorem foldlM_fillFrom_total {p : OpenPhi} {preds : List Block} {later : List OpenPhi}
    {done : List Block} {vars : List SymbolId} (hregion : Region P d)
    (hd : d.Coherent ⟨later, some (p, done), closing?⟩) (hserved : Served P d later)
    (hpreds : ∀ q ∈ preds, P p.var q) (hacyclic : d.Acyclic)
    (hvars : ∀ o ∈ p :: later, o.var ∈ vars) :
    ∃ later' d', on (preds.foldlM (fillFrom p) later) d = (.ok later', d') ∧
      (∀ o ∈ later', o.var ∈ vars) ∧
      later'.length + d'.unboundIn vars ≤ later.length + d.unboundIn vars := by
  induction preds generalizing d later done with
  | nil => exact ⟨later, d, rfl, fun o ho => hvars o (List.mem_cons_of_mem _ ho), Nat.le_refl _⟩
  | cons q rest ih =>
      obtain ⟨mid, d₁, hfirst, hmid, hcost⟩ :=
        fillFrom_total hregion hd (hpreds q (by simp)) hacyclic hvars
      obtain ⟨hgrows, hd₁, hserved₁⟩ :=
        fillFrom_spec hregion hd hserved (hpreds q (by simp)) hfirst
      obtain ⟨later', d', hrest, hlater, hcost'⟩ := ih (hregion.grows hgrows) hd₁ hserved₁
        (fun q hq => hpreds q (List.mem_cons_of_mem _ hq)) (hgrows.acyclic hacyclic)
        (by
          intro o ho
          rcases List.mem_cons.1 ho with rfl | ho
          · exact hvars o (by simp)
          · exact hmid o ho)
      refine ⟨later', d', ?_, hlater, Nat.le_trans hcost' hcost⟩
      rw [List.foldlM_cons, on_bind, hfirst]
      exact hrest

theorem fill_total {rounds : Nat} {pending : List OpenPhi} {vars : List SymbolId}
    (hregion : Region P d) (hd : d.Coherent ⟨pending, none, closing?⟩)
    (hserved : Served P d pending) (hacyclic : d.Acyclic) (hvars : ∀ o ∈ pending, o.var ∈ vars)
    (hrounds : pending.length + d.unboundIn vars ≤ rounds) :
    ∃ d', on (fill rounds pending) d = (.ok (), d') := by
  induction rounds generalizing d pending with
  | zero =>
      have : pending = [] := List.length_eq_zero_iff.1 (by omega)
      rw [this]
      exact ⟨d, rfl⟩
  | succ rounds ih =>
      cases pending with
      | nil => exact ⟨d, rfl⟩
      | cons p rest =>
          have hrest : Served P d rest := fun o ho => hserved o (List.mem_cons_of_mem _ ho)
          obtain ⟨later, d₁, hloop, hlater, hcost⟩ := foldlM_fillFrom_total hregion hd.take hrest
            (hserved p (by simp)) hacyclic hvars
          obtain ⟨hgrows, hd₁, hserved₁⟩ := foldlM_fillFrom_spec hregion hd.take hrest
            (hserved p (by simp)) hloop
          rw [List.nil_append, ← hgrows.preds] at hd₁
          obtain ⟨d', hd'⟩ := ih (hregion.grows hgrows) hd₁.drop hserved₁
            (hgrows.acyclic hacyclic) hlater
            (by simp only [List.length_cons] at hrounds; omega)
          refine ⟨d', ?_⟩
          rw [fill, on_bind, on_get]
          dsimp only
          rw [on_bind, hloop]
          exact hd'

theorem fillAll_total {pending : List OpenPhi} (hregion : Region P d)
    (hd : d.Coherent ⟨pending, none, closing?⟩) (hserved : Served P d pending)
    (hacyclic : d.Acyclic) : ∃ d', on (fillAll pending) d = (.ok (), d') := by
  have hcost := d.unboundIn_le (pending.map OpenPhi.var)
  rw [List.length_map] at hcost
  have hrounds : pending.length + d.unboundIn (pending.map OpenPhi.var) ≤
      pending.length * (d.builder.blockCount + 1) := by
    rw [Nat.mul_succ]
    omega
  obtain ⟨d', hd'⟩ :=
    fill_total hregion hd hserved hacyclic (fun o ho => List.mem_map_of_mem ho) hrounds
  exact ⟨d', by rw [fillAll, on_bind, on_get]; exact hd'⟩

/-- A read of a variable that has a type succeeds. -/
theorem read_total {x : SymbolId} {b : Block} (hregion : Region P d) (hd : d.Coherent .none)
    (hb : P x b) (hacyclic : d.Acyclic) (htype : (d.known.type? x).isSome) :
    ∃ v d', on (read x b) d = (.ok v, d') := by
  obtain ⟨v, made, d₁, hok, -⟩ := resolve_total hregion hd hb hacyclic htype
  have hfound := resolve_spec hregion hd hb hok
  have hd₁ : d₁.Coherent ⟨made ++ [], none, none⟩ := hfound.coherent hd
  rw [List.append_nil] at hd₁
  obtain ⟨d', hd'⟩ := fillAll_total (hregion.grows hfound.grows) hd₁ hfound.served
    (hfound.grows.acyclic hacyclic)
  refine ⟨v, d', ?_⟩
  simp only [read, on_bind, hok, hd', on_pure]

/-- A block that is not sealed can be. -/
theorem sealBlock_total {b : Block} (hregion : Region P (release d b)) (hd : d.Coherent .none)
    (hserved : Served P d (d.known.incompleteOf b)) (hopen : d.known.isSealed b = false)
    (hacyclic : d.Acyclic) : ∃ d', on (sealBlock b) d = (.ok (), d') := by
  have hacyclic' : (release d b).Acyclic := hacyclic
  obtain ⟨d', hd'⟩ := fillAll_total hregion (release_coherent hd b)
    (fun p hp => hserved p (List.mem_reverse.1 hp)) hacyclic'
  refine ⟨close d' b, ?_⟩
  rw [sealBlock, on_bind, on_get]
  simp only [hopen, Bool.false_eq_true, if_false, on_bind, on_note]
  have hd'' : on (fillAll (d.known.incompleteOf b).reverse) (release d b) = (.ok (), d') := hd'
  simp only [release] at hd''
  rw [hd'']
  rfl

end Drafting

end Abacus.Lowering
