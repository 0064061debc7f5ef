import Abacus.Flow.Basic

/-!
# Reachability and dominance

A `Graph` is the bare shape of a function: for each block the blocks that control may enter next.
One search serves both questions asked of it. A block is *reachable* if the search from the entry
marks it. A block `a` *dominates* a reachable block `b` if `a` is `b`, or if the search that may not
enter `a` does not mark `b`, that is, if every way from the entry to `b` passes `a`.

* `Graph.explore` — the search; it ends because each round marks a block or drops an entry of its
  work list, and a marked block adds no more entries than the graph has edges;
* `Graph.reached`, `Graph.reachedAvoiding` — from the entry, with or without a block to avoid;
* `Graph.dominates` — the answer for one pair of blocks;
* `Dominance` — the same answers from searches made at most once for each block.
-/

namespace Abacus.Flow

/-- For each block the blocks that come next, one entry for each edge. -/
structure Graph where
  next : Array (List Nat)

namespace Graph

/-- The shape of a function. Edges to blocks that do not exist are left out. -/
def ofFunction (f : Function) : Graph where
  next := f.blockIds.toArray.map fun b =>
    ((f.successors b).map Block.index).filter (· < f.blocks.size)

/-- The number of blocks. -/
def size (g : Graph) : Nat := g.next.size

/-- The blocks that come next after `b`. -/
def nextOf (g : Graph) (b : Nat) : List Nat := g.next.getD b []

/-- The number of edges; parallel edges count separately. -/
def edgeCount (g : Graph) : Nat := g.next.toList.flatten.length

theorem length_nextOf_le (g : Graph) (b : Nat) : (g.nextOf b).length ≤ g.edgeCount := by
  by_cases h : b < g.next.size
  · have hmem : g.next[b] ∈ g.next.toList := by simp
    have hle := (List.sublist_flatten_of_mem hmem).length_le
    simpa [nextOf, h, edgeCount] using hle
  · simp [nextOf, h]

/-- The number of blocks that are not marked. -/
def unmarked (marks : Array Bool) : Nat := marks.count false

theorem unmarked_set_lt {marks : Array Bool} {b : Nat} (h : marks[b]? = some false) :
    unmarked (marks.setIfInBounds b true) < unmarked marks := by
  obtain ⟨hb, hv⟩ := Array.getElem?_eq_some_iff.1 h
  have hpos : 0 < marks.count false := by
    rw [Array.count_pos_iff, ← hv]
    exact Array.getElem_mem hb
  rw [Array.setIfInBounds_def, dif_pos hb, unmarked, unmarked, Array.count_set hb, hv,
    if_pos (beq_self_eq_true false), if_neg (by decide)]
  omega

/-- Marks what can be reached from the blocks of the work list through unmarked blocks. -/
def explore (g : Graph) (marks : Array Bool) : List Nat → Array Bool
  | [] => marks
  | b :: rest =>
    if _h : marks[b]? = some false then
      explore g (marks.setIfInBounds b true) (g.nextOf b ++ rest)
    else explore g marks rest
termination_by todo => unmarked marks * (g.edgeCount + 1) + todo.length
decreasing_by
  · have h1 := unmarked_set_lt _h
    have h2 := g.length_nextOf_le b
    have h3 := Nat.mul_le_mul_right (g.edgeCount + 1) (Nat.succ_le_of_lt h1)
    rw [Nat.succ_mul] at h3
    simp only [List.length_append, List.length_cons]
    omega
  · simp

/-- The blocks that can be reached from the entry. -/
def reached (g : Graph) : Array Bool := g.explore (Array.replicate g.size false) [0]

/-- The blocks that can be reached from the entry without entering `a`; and `a` itself, which the
search takes as marked from the start. -/
def reachedAvoiding (g : Graph) (a : Nat) : Array Bool :=
  g.explore ((Array.replicate g.size false).setIfInBounds a true) [0]

/-- Does every way from the entry to `b` pass `a`? Blocks that cannot be reached are dominated by
none. -/
def dominates (g : Graph) (a b : Nat) : Bool :=
  g.reached.getD b false && a < g.size && (a = b || !(g.reachedAvoiding a).getD b true)

end Graph

/-- The searches that dominance needs, each made when it is first asked for. -/
structure Dominance where
  reached : Array Bool
  avoiding : Array (Thunk (Array Bool))

namespace Dominance

/-- The searches on a graph. -/
def ofGraph (g : Graph) : Dominance where
  reached := g.reached
  avoiding := (Array.range g.size).map fun a => Thunk.mk fun _ => g.reachedAvoiding a

/-- Can the block be reached from the entry? -/
def isReachable (d : Dominance) (b : Block) : Bool := d.reached.getD b.index false

/-- Does `a` dominate `b`? -/
def dominates (d : Dominance) (a b : Block) : Bool :=
  match d.avoiding[a.index]? with
  | some marks => d.isReachable b && (a = b || !marks.get.getD b.index true)
  | none => false

theorem dominates_ofGraph (g : Graph) (a b : Block) :
    (ofGraph g).dominates a b = g.dominates a.index b.index := by
  have hab : (a = b) = (a.index = b.index) := by
    cases a; cases b; simp
  by_cases h : a.index < g.size
  · simp [dominates, ofGraph, isReachable, Graph.dominates, h, hab, Thunk.get]
  · simp [dominates, ofGraph, Graph.dominates, h]

end Dominance

end Abacus.Flow
