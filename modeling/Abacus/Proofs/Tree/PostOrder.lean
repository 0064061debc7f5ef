import Mathlib.Data.List.Nodup
import Mathlib.Data.List.Pairwise
import Mathlib.Logic.ExistsUnique
import Mathlib.Logic.Relation
import Abacus.Tree.Arena

/-!
# Trees in flat storage are in post-order

A tree is stored with its subtrees one after the other and its own node behind them. So the nodes below
a node are those of a range that ends with it, and all nodes but the last, which is the root, are the
child of one node each.

* `Arena.Row` — a range of nodes is made of subtrees, one after the other;
* `Arena.Row.below_iff`, `Arena.Row.perm` — which nodes are below them, and that each is there once;
* `Arena.Listed`, `Tree.place_listed` — the stored nodes are those of the tree;
* `Arena.IsPostOrder`, `Tree.toArena_isPostOrder` — all of it about a whole tree.
-/

namespace Abacus

/-- What holds of a tree if it holds of all its children holds of every tree. -/
theorem Tree.children_induction {motive : Tree → Prop}
    (node : ∀ span shape, (∀ t ∈ shape.children, motive t) → motive (.node span shape)) :
    ∀ t, motive t := by
  have hnil : ∀ u ∈ ([] : List Tree), motive u := nofun
  have hcons : ∀ {t : Tree} {ts : List Tree}, motive t → (∀ u ∈ ts, motive u) →
      ∀ u ∈ t :: ts, motive u := fun ht hts => List.forall_mem_cons.2 ⟨ht, hts⟩
  intro t
  induction t using Tree.rec (motive_2 := fun shape => ∀ t ∈ shape.children, motive t)
    (motive_3 := fun ts => ∀ t ∈ ts, motive t) (motive_4 := fun t? => ∀ t ∈ t?.toList, motive t) with
  | node span shape ih => exact node span shape ih
  | program _ ih u hu | list _ ih u hu => exact ih u hu
  | integer _ u hu | floating _ u hu | ident _ u hu => exact hnil u hu
  | infixOp _ _ _ ihleft ihright u hu => exact hcons ihleft (hcons ihright hnil) u hu
  | negate _ ih u hu | call _ _ ih u hu | letVar _ _ ih u hu | setVar _ _ ih u hu | giveBack _ ih u hu
  | fnDef _ _ _ ih u hu => exact hcons ih hnil u hu
  | ifElse _ _ _ ihcondition ihthen ihelse u hu => exact hcons ihcondition (hcons ihthen ihelse) u hu
  | forLoop _ _ _ ihbound ihbody u hu => exact hcons ihbound (hcons ihbody hnil) u hu
  | nil u hu => exact hnil u hu
  | cons _ _ ih ih' u hu => exact hcons ih ih' u hu
  | none u hu => exact hnil u hu
  | some _ ih u hu => exact hcons ih hnil u hu

namespace Arena

/-- The children of a node, by number. -/
def childrenOf (nodes : Array FlatNode) (node : Nat) : List Nat :=
  (nodes[node]?.map (·.shape.children)).getD []

/-- The span of a node. -/
def spanOf? (nodes : Array FlatNode) (node : Nat) : Option Span := nodes[node]?.map (·.span)

/-- The node `lower` is `upper`, or a child of it, or a child of such a child, and so on. -/
def Below (nodes : Array FlatNode) (upper lower : Nat) : Prop :=
  Relation.ReflTransGen (fun parent child => child ∈ childrenOf nodes parent) upper lower

/-- The nodes from `first` up to `stop` are the nodes `ids` with what is below them, each behind what is
below it. -/
inductive Row (nodes : Array FlatNode) : Nat → List Nat → Nat → Prop
  | nil {first : Nat} : Row nodes first [] first
  | cons {first id stop : Nat} {ids : List Nat} : Row nodes first (childrenOf nodes id) id →
      Row nodes (id + 1) ids stop → Row nodes first (id :: ids) stop

section

variable {nodes : Array FlatNode} {first stop node : Nat} {ids : List Nat}

namespace Row

theorem le (h : Row nodes first ids stop) : first ≤ stop := by
  induction h with
  | nil => exact Nat.le_refl _
  | cons _ _ ihbelow ihbehind => exact Nat.le_trans ihbelow (Nat.le_trans (Nat.le_succ _) ihbehind)

/-- Every node of the range ends a range of its own. -/
theorem at_node (h : Row nodes first ids stop) (hfirst : first ≤ node) (hstop : node < stop) :
    ∃ start, Row nodes start (childrenOf nodes node) node := by
  induction h with
  | nil => exact absurd hstop (Nat.not_lt_of_le hfirst)
  | @cons first id _ _ hbelow _ ihbelow ihbehind =>
    rcases Nat.lt_trichotomy node id with hlt | rfl | hlt
    · exact ihbelow hfirst hlt
    · exact ⟨first, hbelow⟩
    · exact ihbehind hlt hstop

/-- Below a node are the node itself and what is below its children. -/
theorem below_node (hle : first ≤ node) {lower : Nat}
    (hchildren : (∃ child ∈ childrenOf nodes node, Below nodes child lower) ↔ first ≤ lower ∧ lower < node) :
    Below nodes node lower ↔ first ≤ lower ∧ lower ≤ node := by
  rw [Below, Relation.ReflTransGen.cases_head_iff]
  change node = lower ∨ (∃ child ∈ childrenOf nodes node, Below nodes child lower) ↔ _
  rw [hchildren]
  omega

/-- The nodes below the nodes of a row are those of the range. -/
theorem below_iff (h : Row nodes first ids stop) {lower : Nat} :
    (∃ id ∈ ids, Below nodes id lower) ↔ first ≤ lower ∧ lower < stop := by
  induction h with
  | nil =>
    simp only [List.not_mem_nil, false_and, exists_false, false_iff]
    omega
  | cons hbelow hbehind ihbelow ihbehind =>
    have hle := hbelow.le
    have hle' := hbehind.le
    simp only [List.mem_cons, exists_eq_or_imp, below_node hle ihbelow, ihbehind]
    omega

theorem lt_of_mem (h : Row nodes first ids stop) {id : Nat} (hmem : id ∈ ids) : id < stop :=
  (h.below_iff.1 ⟨id, hmem, .refl⟩).2

/-- Every node of the range is one of the row, or a child of one node of the range, once. -/
theorem perm (h : Row nodes first ids stop) :
    (ids ++ (List.range' first (stop - first)).flatMap (childrenOf nodes)).Perm
      (List.range' first (stop - first)) := by
  induction h with
  | nil => simp
  | @cons first id stop ids hbelow hbehind ihbelow ihbehind =>
    have hle := hbelow.le
    have hle' := hbehind.le
    -- The range is what is below the first node, that node, and what is behind it.
    have hrange : List.range' first (stop - first) = List.range' first (id - first) ++
        id :: List.range' (id + 1) (stop - (id + 1)) := by
      rw [← List.range'_succ, ← Nat.add_sub_cancel' hle, Nat.add_sub_cancel_left,
        List.range'_append_1]
      congr 1
      omega
    calc id :: ids ++ (List.range' first (stop - first)).flatMap (childrenOf nodes)
      _ = id :: (ids ++ ((List.range' first (id - first)).flatMap (childrenOf nodes) ++
          (childrenOf nodes id ++
            (List.range' (id + 1) (stop - (id + 1))).flatMap (childrenOf nodes)))) := by
        rw [hrange, List.flatMap_append, List.flatMap_cons, List.cons_append]
      List.Perm _ (id :: ((childrenOf nodes id ++
          (List.range' first (id - first)).flatMap (childrenOf nodes)) ++
          (ids ++ (List.range' (id + 1) (stop - (id + 1))).flatMap (childrenOf nodes)))) := by
        refine List.Perm.cons id (List.perm_iff_count.2 fun a => ?_)
        simp only [List.count_append]
        omega
      List.Perm _ (id :: (List.range' first (id - first) ++ List.range' (id + 1) (stop - (id + 1)))) :=
        (ihbelow.append ihbehind).cons id
      List.Perm _ (List.range' first (stop - first)) := by
        rw [hrange]
        exact List.perm_middle.symm

end Row

/-! ## Trees in a row -/

/-- The nodes from `first` up to `stop` are those of the trees, one after the other; the numbers of
their own nodes are `ids`. -/
inductive Listed (nodes : Array FlatNode) : Nat → List Nat → List Tree → Nat → Prop
  | nil {first : Nat} : Listed nodes first [] [] first
  | cons {first id stop : Nat} {ids : List Nat} {t : Tree} {ts : List Tree} {flat : FlatNode} :
      nodes[id]? = some flat → flat.span = t.span →
      Listed nodes first flat.shape.children t.shape.children id → Listed nodes (id + 1) ids ts stop →
      Listed nodes first (id :: ids) (t :: ts) stop

theorem childrenOf_eq {flat : FlatNode} (h : nodes[node]? = some flat) :
    childrenOf nodes node = flat.shape.children := by
  rw [childrenOf, h]
  rfl

namespace Listed

variable {ts : List Tree}

/-- The nodes of trees in a row are in post-order. -/
theorem row (h : Listed nodes first ids ts stop) : Row nodes first ids stop := by
  induction h with
  | nil => exact .nil
  | cons hflat _ _ _ ihbelow ihbehind => exact .cons (childrenOf_eq hflat ▸ ihbelow) ihbehind

/-- The trees are stored with their spans. -/
theorem spans (h : Listed nodes first ids ts stop) :
    ids.map (spanOf? nodes) = ts.map fun t => some t.span := by
  induction h with
  | nil => rfl
  | cons hflat hspan _ _ _ ih =>
    rw [List.map_cons, List.map_cons, ih, spanOf?, hflat, Option.map_some, hspan]

/-- Nodes that come behind do not matter. -/
theorem append (h : Listed nodes first ids ts stop) (more : Array FlatNode)
    (hstop : stop ≤ nodes.size) : Listed (nodes ++ more) first ids ts stop := by
  induction h with
  | nil => exact .nil
  | @cons first id stop ids t ts flat hflat hspan hbelow hbehind ihbelow ihbehind =>
    have hle := hbehind.row.le
    refine .cons ?_ hspan (ihbelow (by omega)) (ihbehind hstop)
    rw [Array.getElem?_append_left (by omega)]
    exact hflat

/-- Two rows, one after the other. -/
theorem join {middle : Nat} {ids' : List Nat} {ts' : List Tree} (h : Listed nodes first ids ts middle)
    (h' : Listed nodes middle ids' ts' stop) : Listed nodes first (ids ++ ids') (ts ++ ts') stop := by
  induction h with
  | nil => exact h'
  | cons hflat hspan hbelow _ _ ih => exact .cons hflat hspan hbelow (ih h')

end Listed

end

end Arena

namespace Tree

open Arena (Listed)

/-- A node is put behind its children. -/
theorem place_node (span : Span) (shape : Shape Tree) (nodes : Array FlatNode) :
    ∃ flat : FlatNode, flat.span = span ∧ flat.shape.children = (placeAll shape.children nodes).2 ∧
      place (.node span shape) nodes = (placeAll shape.children nodes).1.push flat := by
  cases shape with
  | ifElse condition thenBody elseBody =>
    cases elseBody with
    | none => exact ⟨_, rfl, rfl, rfl⟩
    | some elseBody => exact ⟨_, rfl, rfl, rfl⟩
  | _ => exact ⟨_, rfl, rfl, rfl⟩

/-- Trees that are stored one by one are stored in a row. -/
theorem placeAll_listed {ts : List Tree}
    (h : ∀ t ∈ ts, ∀ nodes, (∃ more, place t nodes = nodes ++ more) ∧
      Listed (place t nodes) nodes.size [(place t nodes).size - 1] [t] (place t nodes).size)
    (nodes : Array FlatNode) : (∃ more, (placeAll ts nodes).1 = nodes ++ more) ∧
      Listed (placeAll ts nodes).1 nodes.size (placeAll ts nodes).2 ts (placeAll ts nodes).1.size := by
  induction ts generalizing nodes with
  | nil => exact ⟨⟨#[], Array.append_empty.symm⟩, .nil⟩
  | cons t ts ih =>
    obtain ⟨ht, hts⟩ := List.forall_mem_cons.1 h
    obtain ⟨⟨more, hmore⟩, hfirst⟩ := ht nodes
    obtain ⟨⟨more', hmore'⟩, hrest⟩ := ih hts (place t nodes)
    refine ⟨⟨more ++ more', ?_⟩, ?_⟩
    · rw [← Array.append_assoc, ← hmore, ← hmore']
      rfl
    · have hplaced := hfirst.append more' (Nat.le_refl _)
      rw [← hmore'] at hplaced
      exact hplaced.join hrest

/-- The stored nodes are those of the tree, behind those that were there. -/
theorem place_listed (t : Tree) : ∀ nodes, (∃ more, place t nodes = nodes ++ more) ∧
    Listed (place t nodes) nodes.size [(place t nodes).size - 1] [t] (place t nodes).size := by
  induction t using children_induction with
  | node span shape ih =>
    intro nodes
    obtain ⟨flat, hspan, hchildren, hplace⟩ := place_node span shape nodes
    obtain ⟨⟨more, hmore⟩, hlisted⟩ := placeAll_listed ih nodes
    have hpush : place (.node span shape) nodes = (placeAll shape.children nodes).1 ++ #[flat] := by
      rw [hplace, Array.push_eq_append]
    have hsize : (place (.node span shape) nodes).size = (placeAll shape.children nodes).1.size + 1 := by
      rw [hplace, Array.size_push]
    -- The node behind the children does not change what is stored for them.
    have hbelow := hlisted.append #[flat] (Nat.le_refl _)
    rw [← hpush, ← hchildren] at hbelow
    refine ⟨⟨more ++ #[flat], by rw [hpush, hmore, Array.append_assoc]⟩, ?_⟩
    rw [hsize]
    refine .cons ?_ hspan hbelow .nil
    rw [hplace, Nat.add_sub_cancel]
    exact Array.getElem?_push_size

end Tree

/-! ## A whole tree -/

namespace Arena

/-- The nodes are in post-order. -/
structure IsPostOrder (a : Arena) : Prop where
  /-- the root is the last node -/
  root : a.root? = some (a.nodes.size - 1) ∧ 0 < a.nodes.size
  /-- every other node is the child of exactly one node -/
  parent : ∀ child, child < a.nodes.size - 1 → ∃! parent, child ∈ childrenOf a.nodes parent
  /-- no node is a child twice, and children come before their parents -/
  children : ∀ parent, (childrenOf a.nodes parent).Nodup ∧ ∀ child ∈ childrenOf a.nodes parent, child < parent
  /-- the nodes below a node are those of a range that ends with it, and its children with what is below
  them make up this range one after the other, in the order of the source -/
  below : ∀ node, node < a.nodes.size → ∃ first,
    (∀ lower, Below a.nodes node lower ↔ first ≤ lower ∧ lower ≤ node) ∧
      Row a.nodes first (childrenOf a.nodes node) node

/-- A row of one node with what is below it is in post-order. -/
theorem Row.isPostOrder {nodes : Array FlatNode} (h : Row nodes 0 [nodes.size - 1] nodes.size) :
    IsPostOrder ⟨nodes, some (nodes.size - 1)⟩ := by
  have hsize := h.lt_of_mem List.mem_cons_self
  have hat : ∀ node, node < nodes.size → ∃ first, Row nodes first (childrenOf nodes node) node :=
    fun node hnode => h.at_node (Nat.zero_le _) hnode
  have hnone : ∀ node, nodes.size ≤ node → childrenOf nodes node = [] := by
    intro node hnode
    rw [childrenOf, Array.getElem?_eq_none hnode]
    rfl
  -- All nodes but the last are children, each once.
  have hperm : ((List.range' 0 nodes.size).flatMap (childrenOf nodes)).Perm
      (List.range' 0 (nodes.size - 1)) := by
    have hall := h.perm
    obtain ⟨last, hlast⟩ : ∃ last, nodes.size = last + 1 := ⟨nodes.size - 1, by omega⟩
    rw [hlast, Nat.add_sub_cancel, Nat.sub_zero] at hall
    rw [hlast, Nat.add_sub_cancel]
    have hrange : (List.range' 0 (last + 1)).Perm (last :: List.range' 0 last) := by
      rw [List.range'_1_concat, Nat.zero_add]
      exact List.perm_append_singleton _ _
    exact (hall.trans hrange).cons_inv
  obtain ⟨hnodup, hdisjoint⟩ := List.nodup_flatMap.1 (hperm.nodup_iff.2 List.nodup_range')
  have hmem : ∀ node, node ∈ List.range' 0 nodes.size ↔ node < nodes.size := by
    intro node
    rw [List.mem_range'_1]
    omega
  have hlt : ∀ parent, ∀ child ∈ childrenOf nodes parent, parent < nodes.size := by
    intro parent child hchild
    by_contra hge
    rw [hnone parent (Nat.le_of_not_lt hge)] at hchild
    cases hchild
  constructor
  case root => exact ⟨rfl, Nat.zero_lt_of_lt hsize⟩
  case parent =>
    intro child hchild
    have hin : child ∈ List.range' 0 (nodes.size - 1) :=
      List.mem_range'_1.2 ⟨Nat.zero_le _, by rwa [Nat.zero_add]⟩
    obtain ⟨parent, -, hparent⟩ := List.mem_flatMap.1 (hperm.mem_iff.2 hin)
    refine ⟨parent, hparent, fun other hother => ?_⟩
    -- Different parents have no child in common, since each child is there once.
    by_contra hne
    have hsymm : Std.Symm (Function.onFun List.Disjoint (childrenOf nodes)) :=
      ⟨fun _ _ hapart _ hleft hright => hapart hright hleft⟩
    have hapart := hdisjoint.forall ((hmem other).2 (hlt other child hother))
      ((hmem parent).2 (hlt parent child hparent)) hne
    exact hapart hother hparent
  case children =>
    intro parent
    by_cases hparent : parent < nodes.size
    · obtain ⟨first, hchildren⟩ := hat parent hparent
      exact ⟨hnodup parent ((hmem parent).2 hparent), fun child hchild => hchildren.lt_of_mem hchild⟩
    · rw [hnone parent (Nat.le_of_not_lt hparent)]
      exact ⟨List.nodup_nil, nofun⟩
  case below =>
    intro node hnode
    obtain ⟨first, hchildren⟩ := hat node hnode
    exact ⟨first, fun lower => Row.below_node hchildren.le hchildren.below_iff, hchildren⟩

end Arena

/-- A tree is stored in post-order. -/
theorem Tree.toArena_isPostOrder (t : Tree) : t.toArena.IsPostOrder :=
  (place_listed t #[]).2.row.isPostOrder

end Abacus
