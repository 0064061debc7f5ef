import Abacus.Flow.Verifier
import Abacus.Proofs.Flow.Building
import Abacus.Proofs.Flow.Paths
import Mathlib.Data.Option.Basic

/-!
# What the verifier accepts

The verifier works with searches, lists of edges and a growing list of definitions.
`Function.Valid` says the same in terms of paths, and is what the verifier decides.

* `Graph.explore_mark`, `Graph.explore_closed` — a search marks what can be reached, and all of it;
* `Function.isReachable_iff`, `Function.dominates_iff` — the two questions asked of searches;
* `Function.count_incomingEdges` — the edges into a block, as the verifier collects them;
* `valid_of_violation?`, `Valid.violation?_eq_none` — the two directions;
* `Function.violation?_eq_none_iff` — the verifier finds nothing exactly in valid functions;
* `WellFormed.valid` — a stronger property, which does not ask what can be reached.
-/

namespace Abacus.Flow

/-! ## Searches -/

namespace Graph

/-- What holds of the marks and of the work list at the start, and goes over from a block to the
next ones unless the search stops there, holds of all marks at the end. -/
theorem explore_mark {g : Graph} {P : Nat → Prop} {stop : Nat}
    (hnext : ∀ b c, P b → b ≠ stop → c ∈ g.nextOf b → P c) {marks : Array Bool} {todo : List Nat}
    (hstop : marks[stop]? ≠ some false) (hmarks : ∀ b : Nat, marks[b]? = some true → P b)
    (htodo : ∀ b ∈ todo, P b) : ∀ b : Nat, (g.explore marks todo)[b]? = some true → P b := by
  fun_induction explore g marks todo with
  | case1 marks => exact hmarks
  | case2 marks b rest hb ih =>
      have hne : b ≠ stop := fun h => hstop (h ▸ hb)
      have hPb : P b := htodo b (by simp)
      refine ih ?_ ?_ ?_
      · rw [Array.getElem?_setIfInBounds_ne hne]
        exact hstop
      · intro c hc
        by_cases hbc : b = c
        · exact hbc ▸ hPb
        · rw [Array.getElem?_setIfInBounds_ne hbc] at hc
          exact hmarks c hc
      · intro c hc
        rcases List.mem_append.1 hc with hc | hc
        · exact hnext b c hPb hne hc
        · exact htodo c (List.mem_cons_of_mem b hc)
  | case3 marks b rest _ ih => exact ih hstop hmarks fun c hc => htodo c (List.mem_cons_of_mem b hc)

theorem size_explore (g : Graph) (marks : Array Bool) (todo : List Nat) :
    (g.explore marks todo).size = marks.size := by
  fun_induction explore g marks todo with
  | case1 => rfl
  | case2 _ _ _ _ ih => rw [ih, Array.size_setIfInBounds]
  | case3 _ _ _ _ ih => exact ih

/-- What is not left unmarked at some time is not left unmarked at the end. -/
theorem explore_mono {g : Graph} {marks : Array Bool} {todo : List Nat} {b : Nat}
    (h : marks[b]? ≠ some false) : (g.explore marks todo)[b]? ≠ some false := by
  fun_induction explore g marks todo with
  | case1 => exact h
  | case2 marks c rest _ ih =>
      refine ih ?_
      by_cases hc : c = b
      · subst hc
        rw [Array.getElem?_setIfInBounds_self]
        split <;> simp
      · rw [Array.getElem?_setIfInBounds_ne hc]
        exact h
  | case3 _ _ _ _ ih => exact ih h

/-- Nothing on the work list is left unmarked. -/
theorem explore_todo {g : Graph} {marks : Array Bool} {todo : List Nat} :
    ∀ b ∈ todo, (g.explore marks todo)[b]? ≠ some false := by
  fun_induction explore g marks todo with
  | case1 => simp
  | case2 marks c rest _ ih =>
      intro b hb
      rcases List.mem_cons.1 hb with rfl | hb
      · refine explore_mono ?_
        rw [Array.getElem?_setIfInBounds_self]
        split <;> simp
      · exact ih b (List.mem_append_right _ hb)
  | case3 marks c rest hc ih =>
      intro b hb
      rcases List.mem_cons.1 hb with rfl | hb
      · exact explore_mono hc
      · exact ih b hb

/-- A search goes on from every block that it marks. -/
theorem explore_closed {g : Graph} {marks : Array Bool} {todo : List Nat} {b c : Nat}
    (hb : (g.explore marks todo)[b]? = some true) (hbefore : marks[b]? ≠ some true)
    (hc : c ∈ g.nextOf b) : (g.explore marks todo)[c]? ≠ some false := by
  fun_induction explore g marks todo with
  | case1 => exact absurd hb hbefore
  | case2 marks d rest _ ih =>
      by_cases hd : d = b
      · exact explore_todo c (List.mem_append_left _ (hd ▸ hc))
      · refine ih hb ?_
        rw [Array.getElem?_setIfInBounds_ne hd]
        exact hbefore
  | case3 _ _ _ _ ih => exact ih hb hbefore

end Graph

namespace Function

variable {f : Function}

theorem size_ofFunction (f : Function) : (Graph.ofFunction f).size = f.blocks.size := by
  simp [Graph.ofFunction, Graph.size, blockIds]

/-- The graph of a function has its edges, as far as they lead to blocks. -/
theorem mem_nextOf_iff {b c : Nat} : c ∈ (Graph.ofFunction f).nextOf b ↔
    (⟨c⟩ : Block) ∈ f.successors ⟨b⟩ ∧ c < f.blocks.size := by
  by_cases hb : b < f.blocks.size
  · have hnext : (Graph.ofFunction f).nextOf b =
        ((f.successors ⟨b⟩).map Block.index).filter (· < f.blocks.size) := by
      simp [Graph.ofFunction, Graph.nextOf, blockIds, hb]
    rw [hnext, List.mem_filter, List.mem_map, decide_eq_true_eq]
    refine and_congr_left fun _ => ⟨?_, fun h => ⟨⟨c⟩, h, rfl⟩⟩
    rintro ⟨s, hs, rfl⟩
    exact hs
  · have hnext : (Graph.ofFunction f).nextOf b = [] := by
      simp [Graph.ofFunction, Graph.nextOf, blockIds, hb]
    rw [hnext]
    refine ⟨fun h => absurd h List.not_mem_nil, fun h => ?_⟩
    exact absurd (lt_of_mem_successors h.1) hb

/-- A search from the entry that does not enter the blocks marked at the start. -/
abbrev search (f : Function) (marks : Array Bool) : Array Bool :=
  (Graph.ofFunction f).explore marks [0]

/-- A search marks, apart from the block that it stops at, only blocks with a path around it. -/
theorem path_of_mark {a b : Block}
    (h : ((Graph.ofFunction f).reachedAvoiding a.index)[b.index]? = some true) :
    b = a ∨ ∃ p, f.Path p b ∧ a ∉ p ++ [b] := by
  let P : Nat → Prop := fun c => (⟨c⟩ : Block) = a ∨ ∃ p, f.Path p ⟨c⟩ ∧ a ∉ p ++ [⟨c⟩]
  have hnext : ∀ b c, P b → b ≠ a.index → c ∈ (Graph.ofFunction f).nextOf b → P c := by
    rintro c d (rfl | ⟨p, hp, hnot⟩) hne hd
    · exact absurd rfl hne
    · by_cases hda : (⟨d⟩ : Block) = a
      · exact .inl hda
      · refine .inr ⟨p ++ [⟨c⟩], .edge hp (mem_nextOf_iff.1 hd).1, fun hmem => ?_⟩
        rcases List.mem_append.1 hmem with hmem | hmem
        · exact hnot hmem
        · exact hda (List.mem_singleton.1 hmem).symm
  show P b.index
  refine Graph.explore_mark hnext ?_ ?_ ?_ b.index h
  · rw [Array.getElem?_setIfInBounds_self]
    split <;> simp
  · intro c hc
    by_cases hca : a.index = c
    · exact .inl (by rw [← hca])
    · rw [Array.getElem?_setIfInBounds_ne hca] at hc
      simp [Array.getElem?_replicate] at hc
  · intro c hc
    rw [List.mem_singleton.1 hc]
    by_cases ha : Function.entry = a
    · exact .inl ha
    · exact .inr ⟨[], .entry, fun hmem => ha (List.mem_singleton.1 hmem).symm⟩

/-- A search marks every block to which a path leads through blocks not marked at the start. -/
theorem mark_of_path {marks : Array Bool} {p : List Block} {b : Block} (h : f.Path p b)
    (hsize : marks.size = f.blocks.size)
    (hfree : ∀ c ∈ p ++ [b], marks[c.index]? ≠ some true)
    (hlt : b.index < f.blocks.size) : (f.search marks)[b.index]? = some true := by
  have hmarked : ∀ {c : Nat}, c < f.blocks.size → (f.search marks)[c]? ≠ some false →
      (f.search marks)[c]? = some true := by
    intro c hc hne
    have hc' : c < (f.search marks).size := by rw [Graph.size_explore, hsize]; exact hc
    rw [Array.getElem?_eq_getElem hc'] at hne ⊢
    simpa using hne
  induction h with
  | entry => exact hmarked hlt (Graph.explore_todo 0 (by simp))
  | @edge p b c hpath hedge ih =>
      have hb := lt_of_mem_successors hedge
      have hbefore : (f.search marks)[b.index]? = some true :=
        ih (fun d hd => hfree d (List.mem_append_left _ hd)) hb
      exact hmarked hlt (Graph.explore_closed hbefore (hfree b (by simp))
        (mem_nextOf_iff.2 ⟨hedge, hlt⟩))

/-- Some path leads to the block. -/
def Reachable (f : Function) (b : Block) : Prop := ∃ p, f.Path p b

/-- The verifier reaches the existing blocks to which a path leads. -/
theorem isReachable_iff {b : Block} : (Dominance.ofGraph (Graph.ofFunction f)).isReachable b = true ↔
    b.index < f.blocks.size ∧ f.Reachable b := by
  have hsize : (Array.replicate f.blocks.size false).size = f.blocks.size := Array.size_replicate
  have hreached : (Dominance.ofGraph (Graph.ofFunction f)).isReachable b = true ↔
      (f.search (Array.replicate f.blocks.size false))[b.index]? = some true := by
    rw [← size_ofFunction f]
    show (Graph.ofFunction f).reached.getD b.index false = true ↔
      (Graph.ofFunction f).reached[b.index]? = some true
    rw [Array.getD_eq_getD_getElem?]
    cases (Graph.ofFunction f).reached[b.index]? <;> simp
  rw [hreached]
  constructor
  · intro h
    have hlt : b.index < f.blocks.size := by
      obtain ⟨hlt, -⟩ := Array.getElem?_eq_some_iff.1 h
      rwa [Graph.size_explore, hsize] at hlt
    refine ⟨hlt, ?_⟩
    -- Nothing stands in the way of this search: it stops at no block.
    have hnext : ∀ c d, f.Reachable ⟨c⟩ → c ≠ f.blocks.size →
        d ∈ (Graph.ofFunction f).nextOf c → f.Reachable ⟨d⟩ := by
      rintro c d ⟨p, hp⟩ - hd
      exact ⟨_, .edge hp (mem_nextOf_iff.1 hd).1⟩
    refine Graph.explore_mark hnext (by simp) ?_ ?_ b.index h
    · intro c hc
      simp [Array.getElem?_replicate] at hc
    · intro c hc
      rw [List.mem_singleton.1 hc]
      exact ⟨[], .entry⟩
  · rintro ⟨hlt, p, hp⟩
    refine mark_of_path hp hsize (fun c _ hc => ?_) hlt
    simp [Array.getElem?_replicate] at hc

/-- A path to an existing block passes existing blocks only. -/
theorem Path.lt {p : List Block} {b c : Block} (h : f.Path p b) (hb : b.index < f.blocks.size)
    (hc : c ∈ p ++ [b]) : c.index < f.blocks.size := by
  induction h with
  | entry => exact List.mem_singleton.1 hc ▸ hb
  | edge _ hedge ih =>
      rcases List.mem_append.1 hc with hc | hc
      · exact ih (lt_of_mem_successors hedge) hc
      · exact List.mem_singleton.1 hc ▸ hb

/-- The verifier says of a reachable block that it is dominated when the other block stands on all
paths to it. -/
theorem dominates_iff {a b : Block}
    (hb : (Dominance.ofGraph (Graph.ofFunction f)).isReachable b = true) :
    (Dominance.ofGraph (Graph.ofFunction f)).dominates a b = true ↔ f.Dominates a b := by
  obtain ⟨hlt, p, hp⟩ := isReachable_iff.1 hb
  have hreached : (Graph.ofFunction f).reached.getD b.index false = true := hb
  have hsize : ((Array.replicate f.blocks.size false).setIfInBounds a.index true).size =
      f.blocks.size := by
    rw [Array.size_setIfInBounds, Array.size_replicate]
  have hmarks : (Graph.ofFunction f).reachedAvoiding a.index =
      f.search ((Array.replicate f.blocks.size false).setIfInBounds a.index true) := by
    rw [Graph.reachedAvoiding, size_ofFunction]
  have hlt' : b.index < ((Graph.ofFunction f).reachedAvoiding a.index).size := by
    rw [hmarks, Graph.size_explore, hsize]
    exact hlt
  have hfree : ∀ c : Block, c ≠ a →
      ((Array.replicate f.blocks.size false).setIfInBounds a.index true)[c.index]? ≠ some true := by
    intro c hc
    rw [Array.getElem?_setIfInBounds_ne (Block.index_ne (Ne.symm hc))]
    simp [Array.getElem?_replicate]
  have hmark : (!(((Graph.ofFunction f).reachedAvoiding a.index).getD b.index true)) = true ↔
      ((Graph.ofFunction f).reachedAvoiding a.index)[b.index]? ≠ some true := by
    rw [Array.getD_eq_getD_getElem?, Array.getElem?_eq_getElem hlt', Option.getD_some]
    simp
  rw [Dominance.dominates_ofGraph, Graph.dominates, hreached, size_ofFunction, Bool.true_and,
    Bool.and_eq_true, Bool.or_eq_true, decide_eq_true_eq, decide_eq_true_eq, hmark]
  constructor
  · rintro ⟨ha, hab | hnot⟩ q hq
    · rw [Block.ext_index hab]
      simp
    · by_contra hmem
      refine hnot ?_
      rw [hmarks]
      exact mark_of_path hq hsize (fun c hc => hfree c fun e => hmem (e ▸ hc)) hlt
  · intro h
    refine ⟨hp.lt hlt (h p hp), ?_⟩
    by_cases hab : a = b
    · exact .inl (by rw [hab])
    · right
      intro hsome
      rcases path_of_mark hsome with hba | ⟨q, hq, hnot⟩
      · exact hab hba.symm
      · exact hnot (h q hq)

/-! ## Edges -/

/-- The edges of one block add to the lists of the blocks in which it goes on. -/
theorem count_addEdges {edges : Array (List Block)} {b q c : Block} (hc : c.index < edges.size)
    (succs : List Block) :
    ((succs.foldl (fun edges s => edges.modify s.index (· ++ [b])) edges).getD c.index []).count q =
      (edges.getD c.index []).count q + if q = b then succs.count c else 0 := by
  induction succs generalizing edges with
  | nil => simp
  | cons s rest ih =>
      rw [List.foldl_cons, ih (by simpa using hc), Array.getD_eq_getD_getElem?,
        Array.getElem?_modify, Array.getD_eq_getD_getElem?, List.count_cons]
      by_cases hs : s = c
      · subst hs
        rw [if_pos rfl, Array.getElem?_eq_getElem hc]
        by_cases hq : q = b
        · subst hq
          simp
          omega
        · have hne : b ≠ q := fun h => hq h.symm
          simp [hq, hne]
      · have hne : s.index ≠ c.index := fun h => hs (Block.ext_index h)
        rw [if_neg hne]
        simp [hs]

theorem size_addEdges (edges : Array (List Block)) (b : Block) (succs : List Block) :
    (succs.foldl (fun edges s => edges.modify s.index (· ++ [b])) edges).size = edges.size := by
  induction succs generalizing edges with
  | nil => rfl
  | cons s rest ih => rw [List.foldl_cons, ih, Array.size_modify]

theorem count_collect (f : Function) {q c : Block} {blocks : List Block} (hnodup : blocks.Nodup)
    {edges : Array (List Block)} (hc : c.index < edges.size) :
    ((blocks.foldl (fun edges b => (f.successors b).foldl
      (fun edges s => edges.modify s.index (· ++ [b])) edges) edges).getD c.index []).count q =
      (edges.getD c.index []).count q + if q ∈ blocks then (f.successors q).count c else 0 := by
  induction blocks generalizing edges with
  | nil => simp
  | cons b rest ih =>
      obtain ⟨hb, hrest⟩ := List.nodup_cons.1 hnodup
      rw [List.foldl_cons, ih hrest (by rw [size_addEdges]; exact hc), count_addEdges hc]
      by_cases hq : q = b
      · subst hq
        simp [hb]
      · simp [hq]

theorem mem_blockIds {f : Function} {b : Block} : b ∈ f.blockIds ↔ b.index < f.blocks.size := by
  simp only [blockIds, List.mem_map, List.mem_range]
  constructor
  · rintro ⟨i, hi, rfl⟩
    exact hi
  · intro hb
    exact ⟨b.index, hb, rfl⟩

/-- The verifier collects each edge as often as it is there. -/
theorem count_incomingEdges (f : Function) {q c : Block} (hc : c.index < f.blocks.size) :
    (f.incomingEdges.getD c.index []).count q = (f.successors q).count c := by
  have hnodup : f.blockIds.Nodup :=
    List.Pairwise.map _ (fun i j hne h => hne (congrArg Block.index h)) List.nodup_range
  rw [incomingEdges, count_collect f hnodup (by simpa using hc)]
  have hinit : (((Array.replicate f.blocks.size ([] : List Block)).getD c.index []).count q) = 0 := by
    simp [hc]
  rw [hinit, Nat.zero_add]
  split
  · rfl
  · next hq =>
    have hle : f.blocks.size ≤ q.index := Nat.not_lt.1 fun h => hq (mem_blockIds.2 h)
    have hblock : f.block q = default := by
      rw [block, Array.getD_eq_getD_getElem?, Array.getElem?_eq_none hle]
      rfl
    rw [successors, hblock]
    rfl

/-! ## Valid functions -/

/-- The blocks from which edges lead to `c`, one entry for each edge. -/
def sources (f : Function) (c : Block) : List Block :=
  f.blockIds.flatMap fun b => List.replicate ((f.successors b).count c) b

/-- A value is defined where it is used: a value of the same block stands among those defined so
far, a value of another block belongs to a block on every path to this one. -/
def UsableAt (f : Function) (b : Block) (defined : List Value) (v : Value) : Prop :=
  if (f.value v).block = b then v ∈ defined else f.Dominates (f.value v).block b

/-- Every block ends, and leads to blocks that exist. -/
def Ended (f : Function) : Prop := ∀ b : Block, b.index < f.blocks.size →
  ∃ t, (f.block b).terminator? = some t ∧ ∀ c ∈ t.successors, c.index < f.blocks.size

/-- What the verifier asks of a function. -/
structure Valid (f : Function) : Prop where
  ends : f.Ended
  preds : ∀ b : Block, b.index < f.blocks.size → (f.preds b).Perm (f.sources b)
  phis : ∀ {b phi incoming}, phi ∈ (f.block b).phis → f.inst phi = .phi incoming →
    incoming.map Prod.fst = f.preds b
  operands : ∀ {b phi incoming q v}, f.Reachable b → phi ∈ (f.block b).phis →
    f.inst phi = .phi incoming → (q, v) ∈ incoming → f.Reachable q →
    f.Dominates (f.value v).block q
  uses : ∀ {b front v back}, f.Reachable b → (f.block b).insts.toList = front ++ v :: back →
    ∀ u ∈ (f.inst v).operands, f.UsableAt b ((f.block b).phis ++ front) u
  endUses : ∀ {b v}, f.Reachable b → v ∈ f.terminatorUses b →
    f.UsableAt b ((f.block b).phis ++ (f.block b).insts.toList) v

theorem endViolation?_eq_none_iff {b : Block} : f.endViolation? b = none ↔
    ∃ t, (f.block b).terminator? = some t ∧ ∀ c ∈ t.successors, c.index < f.blocks.size := by
  rw [endViolation?]
  cases (f.block b).terminator? with
  | none => simp
  | some t => simp

/-- The paths of a function whose blocks all end lead to blocks. -/
theorem Ended.lt (h : f.Ended) {b : Block} (hb : f.Reachable b) (hpos : 0 < f.blocks.size) :
    b.index < f.blocks.size := by
  obtain ⟨p, hp⟩ := hb
  cases hp with
  | entry => exact hpos
  | @edge p q c hpath hedge =>
      obtain ⟨t, ht, htargets⟩ := h q (lt_of_mem_successors hedge)
      rw [successors_eq ht] at hedge
      exact htargets _ hedge

theorem count_sources {q c : Block} : (f.sources c).count q = (f.successors q).count c := by
  have hnodup : f.blockIds.Nodup :=
    List.Pairwise.map _ (fun i j hne h => hne (congrArg Block.index h)) List.nodup_range
  have hall : ∀ {blocks : List Block}, blocks.Nodup →
      (blocks.flatMap fun b => List.replicate ((f.successors b).count c) b).count q =
        if q ∈ blocks then (f.successors q).count c else 0 := by
    intro blocks hblocks
    induction blocks with
    | nil => rfl
    | cons b rest ih =>
        obtain ⟨hb, hrest⟩ := List.nodup_cons.1 hblocks
        rw [List.flatMap_cons, List.count_append, ih hrest, List.count_replicate]
        by_cases hq : b = q
        · subst hq
          simp [hb]
        · simp [hq, Ne.symm hq]
  rw [sources, hall hnodup]
  split
  · rfl
  · next hq =>
    refine (List.count_eq_zero_of_not_mem fun hmem => hq ?_).symm
    exact mem_blockIds.2 (lt_of_mem_successors hmem)

theorem predsViolation?_eq_none_iff {b : Block} (hb : b.index < f.blocks.size) :
    f.predsViolation? f.incomingEdges b = none ↔ (f.preds b).Perm (f.sources b) := by
  have hedges : (f.incomingEdges.getD b.index []).Perm (f.sources b) :=
    List.perm_iff_count.2 fun q => (count_incomingEdges f hb).trans count_sources.symm
  rw [predsViolation?]
  simp only [ite_eq_left_iff, reduceCtorEq, imp_false, not_not, List.isPerm_iff]
  exact ⟨fun h => h.trans hedges, fun h => h.trans hedges.symm⟩

theorem phiViolation?_eq_none_iff {b : Block} {phi : Value} : f.phiViolation? b phi = none ↔
    ∀ incoming, f.inst phi = .phi incoming → incoming.map Prod.fst = f.preds b := by
  rw [phiViolation?]
  split
  · next incoming hinst =>
    have hall : (∀ incoming', f.inst phi = .phi incoming' → incoming'.map Prod.fst = f.preds b) ↔
        incoming.map Prod.fst = f.preds b := by
      rw [hinst]
      exact ⟨fun h => h incoming rfl, by rintro h _ ⟨⟩; exact h⟩
    rw [hall]
    constructor
    · intro h
      by_contra hne
      by_cases hlength : incoming.length = (f.preds b).length <;> simp [hlength, hne] at h
    · intro h
      have hlength : incoming.length = (f.preds b).length := by rw [← h, List.length_map]
      rw [if_neg (not_not.2 hlength), if_neg (not_not.2 h)]
  · next hno => exact ⟨fun _ incoming hinst => absurd hinst (hno incoming), fun _ => rfl⟩

section

variable {d : Dominance} (hd : d = Dominance.ofGraph (Graph.ofFunction f))
include hd

theorem isDefinedAt_iff {b : Block} (hb : d.isReachable b = true) {defined : List Value}
    {v : Value} : f.isDefinedAt d b defined v = true ↔ f.UsableAt b defined v := by
  subst hd
  rw [isDefinedAt, UsableAt]
  split
  · exact List.contains_iff_mem
  · exact dominates_iff hb

theorem earlyPhiUse?_eq_none_iff {phi : Value} : f.earlyPhiUse? d phi = none ↔
    ∀ incoming q v, f.inst phi = .phi incoming → (q, v) ∈ incoming → d.isReachable q = true →
      f.Dominates (f.value v).block q := by
  subst hd
  rw [earlyPhiUse?]
  split
  · next incoming hinst =>
    simp only [Option.map_eq_none_iff, List.find?_eq_none, Bool.and_eq_true, Bool.not_eq_true',
      not_and, Bool.not_eq_false]
    constructor
    · intro h incoming' q v hinst' hmem hq
      rw [hinst] at hinst'
      cases hinst'
      exact (dominates_iff hq).1 (h (q, v) hmem hq)
    · rintro h ⟨q, v⟩ hmem hq
      exact (dominates_iff hq).2 (h incoming q v hinst hmem hq)
  · next hno => exact ⟨fun _ incoming _ _ hinst => absurd hinst (hno incoming), fun _ => rfl⟩

/-- No value is used too early in the rest of a block: each operand is usable behind what has been
defined so far and the instructions in between. -/
theorem earlyUse?_eq_none_iff {b : Block} (hb : d.isReachable b = true) {rest defined : List Value} :
    f.earlyUse? d b rest defined = none ↔
      (∀ front v back, rest = front ++ v :: back →
        ∀ u ∈ (f.inst v).operands, f.UsableAt b (front.reverse ++ defined) u) ∧
      ∀ u ∈ f.terminatorUses b, f.UsableAt b (rest.reverse ++ defined) u := by
  induction rest generalizing defined with
  | nil => simp [earlyUse?, isDefinedAt_iff hd hb]
  | cons v rest ih =>
      have hfind : ((f.inst v).operands.find? fun u => !f.isDefinedAt d b defined u) = none ↔
          ∀ u ∈ (f.inst v).operands, f.UsableAt b defined u := by
        simp [isDefinedAt_iff hd hb]
      rw [earlyUse?]
      split
      · next u hu =>
        refine ⟨nofun, fun h => ?_⟩
        rw [hfind.2 (h.1 [] v rest rfl)] at hu
        cases hu
      · next hnone =>
        have hfirst := hfind.1 hnone
        rw [ih, List.reverse_cons, List.append_assoc]
        refine and_congr_left fun _ => ⟨fun h front w back hsplit => ?_, fun h front w back hsplit => ?_⟩
        · rcases List.cons_eq_append_iff.1 hsplit with ⟨rfl, hcons⟩ | ⟨front', rfl, hrest⟩
          · cases hcons
            exact hfirst
          · rw [List.reverse_cons, List.append_assoc]
            exact h front' w back hrest
        · have := h (v :: front) w back (by rw [hsplit]; rfl)
          rwa [List.reverse_cons, List.append_assoc] at this

end

/-- Which values count as defined does not depend on their order. -/
theorem UsableAt.mono {b : Block} {defined defined' : List Value} {v : Value}
    (h : f.UsableAt b defined v) (hsub : ∀ u ∈ defined, u ∈ defined') : f.UsableAt b defined' v := by
  unfold UsableAt at h ⊢
  split at h
  · next hb => rw [if_pos hb]; exact hsub v h
  · next hb => rw [if_neg hb]; exact h

theorem useViolation?_eq_none_iff {d : Dominance} (hd : d = Dominance.ofGraph (Graph.ofFunction f))
    {b : Block} : f.useViolation? d b = none ↔ (d.isReachable b = true →
      (∀ phi ∈ (f.block b).phis, f.earlyPhiUse? d phi = none) ∧
      (∀ front v back, (f.block b).insts.toList = front ++ v :: back →
        ∀ u ∈ (f.inst v).operands, f.UsableAt b ((f.block b).phis ++ front) u) ∧
      ∀ u ∈ f.terminatorUses b, f.UsableAt b ((f.block b).phis ++ (f.block b).insts.toList) u) := by
  have hreverse : ∀ {front : List Value} {u}, f.UsableAt b (front.reverse ++ (f.block b).phis) u ↔
      f.UsableAt b ((f.block b).phis ++ front) u := by
    intro front u
    constructor <;> intro h <;> refine h.mono fun w hw => ?_ <;>
      simp only [List.mem_append, List.mem_reverse] at hw ⊢ <;> exact hw.symm
  rw [useViolation?]
  split
  · next hb =>
    have huse : f.earlyUse? d b (f.block b).insts.toList (f.block b).phis = none ↔ _ :=
      earlyUse?_eq_none_iff hd hb
    simp only [hreverse] at huse
    simp only [hb, forall_const]
    split
    · next v hv =>
      refine ⟨nofun, fun h => ?_⟩
      rw [List.findSome?_eq_none_iff.2 h.1] at hv
      cases hv
    · next hnone =>
      rw [Option.map_eq_none_iff, huse]
      exact (and_iff_right (List.findSome?_eq_none_iff.1 hnone)).symm
  · next hb => exact ⟨fun _ h => absurd h hb, fun _ => rfl⟩

/-- A function in which the verifier finds nothing is valid. -/
theorem valid_of_violation? (h : f.violation? = none) : f.Valid := by
  rw [violation?, Option.orElse_eq_none, Option.orElse_eq_none, Option.orElse_eq_none] at h
  obtain ⟨hends, hpreds, hphis, huses⟩ := h
  have hended : f.Ended := fun b hb =>
    endViolation?_eq_none_iff.1 (List.findSome?_eq_none_iff.1 hends b (mem_blockIds.2 hb))
  have hblock : ∀ {b : Block} {P : Prop}, (b.index < f.blocks.size → P) →
      (f.block b = default → P) → P := by
    intro b P hin hout
    by_cases hb : b.index < f.blocks.size
    · exact hin hb
    · exact hout (block_of_le (Nat.not_lt.1 hb))
  have hreach : ∀ {b : Block}, b.index < f.blocks.size → f.Reachable b →
      (Dominance.ofGraph (Graph.ofFunction f)).isReachable b = true :=
    fun hlt hb => isReachable_iff.2 ⟨hlt, hb⟩
  have huse : ∀ {b : Block}, b.index < f.blocks.size → f.Reachable b → _ := fun {b} hlt hb =>
    (useViolation?_eq_none_iff rfl).1 (List.findSome?_eq_none_iff.1 huses b (mem_blockIds.2 hlt))
      (hreach hlt hb)
  constructor
  case ends => exact hended
  case preds =>
    exact fun b hb => (predsViolation?_eq_none_iff hb).1
      (List.findSome?_eq_none_iff.1 hpreds b (mem_blockIds.2 hb))
  case phis =>
    intro b phi incoming hphi hinst
    refine hblock (b := b) (fun hb => ?_) fun hb => by simp [hb] at hphi
    have hall := List.findSome?_eq_none_iff.1 hphis b (mem_blockIds.2 hb)
    exact phiViolation?_eq_none_iff.1 (List.findSome?_eq_none_iff.1 hall phi hphi) incoming hinst
  case operands =>
    intro b phi incoming q v hb hphi hinst hmem hq
    refine hblock (b := b) (fun hlt => ?_) fun hb => by simp [hb] at hphi
    have hearly := (huse hlt hb).1 phi hphi
    have hlt' := hended.lt hq (Nat.lt_of_le_of_lt (Nat.zero_le _) hlt)
    exact (earlyPhiUse?_eq_none_iff rfl).1 hearly incoming q v hinst hmem (hreach hlt' hq)
  case uses =>
    intro b front v back hb hinsts
    refine hblock (b := b) (fun hlt => ?_) fun hb => by simp [hb] at hinsts
    exact (huse hlt hb).2.1 front v back hinsts
  case endUses =>
    intro b v hb hv
    refine hblock (b := b) (fun hlt => ?_) fun hb => by simp [terminatorUses, hb] at hv
    exact (huse hlt hb).2.2 v hv

/-- The verifier finds nothing wrong with a valid function. -/
theorem Valid.violation?_eq_none (h : f.Valid) : f.violation? = none := by
  have hends : f.blockIds.findSome? f.endViolation? = none :=
    List.findSome?_eq_none_iff.2 fun b hb => endViolation?_eq_none_iff.2 (h.ends b (mem_blockIds.1 hb))
  have hpreds : f.blockIds.findSome? (f.predsViolation? f.incomingEdges) = none :=
    List.findSome?_eq_none_iff.2 fun b hb =>
      (predsViolation?_eq_none_iff (mem_blockIds.1 hb)).2 (h.preds b (mem_blockIds.1 hb))
  have hphis : (f.blockIds.findSome? fun b => (f.block b).phis.findSome? (f.phiViolation? b)) =
      none :=
    List.findSome?_eq_none_iff.2 fun b _ => List.findSome?_eq_none_iff.2 fun phi hphi =>
      phiViolation?_eq_none_iff.2 fun _ hinst => h.phis hphi hinst
  have huses : f.blockIds.findSome?
      (f.useViolation? (Dominance.ofGraph (Graph.ofFunction f))) = none := by
    refine List.findSome?_eq_none_iff.2 fun b _ => (useViolation?_eq_none_iff rfl).2 fun hb => ?_
    have hreach := (isReachable_iff.1 hb).2
    refine ⟨fun phi hphi => ?_, fun front v back => h.uses hreach, fun u => h.endUses hreach⟩
    refine (earlyPhiUse?_eq_none_iff rfl).2 fun incoming q v hinst hmem hq => ?_
    exact h.operands hreach hphi hinst hmem (isReachable_iff.1 hq).2
  rw [violation?, hends, hpreds, hphis, huses]
  rfl

/-- The verifier accepts the valid functions and no others. -/
theorem violation?_eq_none_iff (f : Function) : f.violation? = none ↔ f.Valid :=
  ⟨valid_of_violation?, Valid.violation?_eq_none⟩

/-! ## Well-formed functions -/

/-- The value may be used in the block when the values `defined` have been defined there. -/
def DefinedAt (f : Function) (b : Block) (defined : List Value) (v : Value) : Prop :=
  f.Dominates (f.value v).block b ∧ ((f.value v).block = b → v ∈ defined)

/-- The blocks end and record their edges, phis have one operand for each edge, and values are
defined before they are used, on every path. -/
structure WellFormed (f : Function) : Prop where
  ends : ∀ {b : Block}, b.index < f.blocks.size → ∃ t, (f.block b).terminator? = some t ∧
    ∀ c ∈ t.successors, c.index < f.blocks.size
  edges : ∀ q c, (f.successors q).count c = (f.preds c).count q
  phis : ∀ {b phi incoming}, phi ∈ (f.block b).phis → f.inst phi = .phi incoming →
    incoming.map Prod.fst = f.preds b
  operands : ∀ {b phi incoming q v}, phi ∈ (f.block b).phis → f.inst phi = .phi incoming →
    (q, v) ∈ incoming → f.Dominates (f.value v).block q
  uses : ∀ {b front v back}, (f.block b).insts.toList = front ++ v :: back →
    ∀ u ∈ (f.inst v).operands, f.DefinedAt b (front ++ (f.block b).phis) u
  endUses : ∀ {b v}, v ∈ f.terminatorUses b →
    f.DefinedAt b ((f.block b).insts.toList ++ (f.block b).phis) v

/-- What holds of all blocks and paths holds of those that can be reached. -/
theorem WellFormed.valid (h : f.WellFormed) : f.Valid := by
  have husable : ∀ {b defined defined' v}, f.DefinedAt b defined v → (∀ u ∈ defined, u ∈ defined') →
      f.UsableAt b defined' v := by
    rintro b defined defined' v ⟨hdominates, hhere⟩ hsub
    unfold UsableAt
    split
    · next hb => exact hsub v (hhere hb)
    · exact hdominates
  constructor
  case ends => exact fun b hb => h.ends hb
  case preds =>
    exact fun b hb => List.perm_iff_count.2 fun q => by rw [count_sources, h.edges]
  case phis => exact h.phis
  case operands => exact fun _ hphi hinst hmem _ => h.operands hphi hinst hmem
  case uses =>
    intro b front v back _ hinsts u hu
    exact husable (h.uses hinsts u hu) fun w hw => by
      rw [List.mem_append] at hw ⊢
      exact hw.symm
  case endUses =>
    intro b v _ hv
    exact husable (h.endUses hv) fun w hw => by
      rw [List.mem_append] at hw ⊢
      exact hw.symm

end Function

end Abacus.Flow
