import Mathlib.Data.List.Infix
import Abacus.Proofs.Grammar.RoundTrip
import Abacus.Proofs.Source.Parsing
import Abacus.Proofs.Tree.Building

/-!
# How deep trees are

The room for nesting bounds every way down a tree, except along the left operands of operators. A chain
of operators is read in a loop, which takes no room for the operators that are put on top of each other, so
a long line of text has a deep tree.

* `Tree.Path` — a way down from a node, with its steps to left operands told apart from all others;
* `Tree.NestsWithin`, `Tree.builtUp_nestsWithin` — a bound on the other steps, by the room for nesting;
* `parse_nests_within` — the bound for texts that are parsed, and how deep chains make their trees;
* `depth_unbounded` — there is no bound on all steps.
-/

namespace Abacus

open Abacus.Parser (maxNesting)

/-! ## Paths -/

/-- A step from a node to one of its children: from an operator to its left operand, or to any other child. -/
inductive Tree.Step where
  | left
  | inward
  deriving DecidableEq

/-- The children of a node, with the steps that lead to them. -/
def Shape.steps {α : Type} : Shape α → List (Tree.Step × α)
  | .infixOp _ left right => [(.left, left), (.inward, right)]
  | shape => shape.children.map fun child => (.inward, child)

theorem Shape.map_snd_steps {α : Type} (shape : Shape α) : shape.steps.map Prod.snd = shape.children := by
  cases shape <;> simp [steps, children, Function.comp_def]

theorem Shape.mem_children_of_steps {α : Type} {shape : Shape α} {first : Tree.Step} {child : α}
    (h : (first, child) ∈ shape.steps) : child ∈ shape.children :=
  shape.map_snd_steps ▸ List.mem_map_of_mem (f := Prod.snd) h

theorem Shape.steps_map {α β : Type} (f : α → β) (shape : Shape α) :
    (shape.map f).steps = shape.steps.map fun edge => (edge.1, f edge.2) := by
  cases shape with
  | ifElse _ _ elseBody => cases elseBody <;> rfl
  | program items | list items => simp [map, steps, children]
  | _ => rfl

namespace Tree

/-- The steps from the root of a tree to a node of it. -/
inductive Path : Tree → List Step → Tree → Prop
  | root (t : Tree) : Path t [] t
  | step {span shape first t rest u} (h : (first, t) ∈ shape.steps) (hrest : Path t rest u) :
      Path (.node span shape) (first :: rest) u

/-- On no way down are there more than `n` steps other than to left operands. -/
def NestsWithin (n : Nat) (t : Tree) : Prop := ∀ path u, t.Path path u → path.count .inward ≤ n

variable {n m : Nat} {t u left right : Tree} {span : Span} {shape : Shape Tree} {path : List Step}

theorem NestsWithin.mono (h : t.NestsWithin n) (hle : n ≤ m) : t.NestsWithin m :=
  fun path u hpath => Nat.le_trans (h path u hpath) hle

/-- From the node itself there is one step more. -/
theorem nestsWithin_node (h : ∀ t ∈ shape.children, t.NestsWithin n) :
    (node span shape).NestsWithin (n + 1) := by
  rintro path u (_ | @⟨_, _, first, t, rest, _, hfirst, hrest⟩)
  · exact Nat.zero_le _
  · have hle := h t (Shape.mem_children_of_steps hfirst) rest u hrest
    rw [List.count_cons]
    split <;> omega

/-- The step to a left operand does not count. -/
theorem nestsWithin_infixOp {op : InfixOp} (hleft : left.NestsWithin (n + 1))
    (hright : right.NestsWithin n) : (node span (.infixOp op left right)).NestsWithin (n + 1) := by
  rintro path u (_ | @⟨_, _, first, t, rest, _, hfirst, hrest⟩)
  · exact Nat.zero_le _
  · simp only [Shape.steps, List.mem_cons, List.not_mem_nil, or_false] at hfirst
    rcases hfirst with h | h <;> cases h
    · rw [List.count_cons_of_ne (by decide)]
      exact hleft rest u hrest
    · rw [List.count_cons_self]
      exact Nat.succ_le_succ (hright rest u hrest)

theorem nestsWithin_leaf (h : shape.children = []) : (node span shape).NestsWithin n := by
  rintro path u (_ | @⟨_, _, first, t, rest, _, hfirst, -⟩)
  · exact Nat.zero_le _
  · have ht := Shape.mem_children_of_steps hfirst
    rw [h] at ht
    cases ht

/-- Each level of nesting is two steps at most, to a list of arguments and one of them, or to a statement and
what is in it. -/
theorem builtUp_nestsWithin : BuiltUp (fun _ => True) (fun room => NestsWithin (2 * room))
    fun room => NestsWithin (2 * room + 1) where
  leaf h := nestsWithin_leaf h
  enclosed h := h.mono (Nat.mul_le_mul_left 2 (Nat.le_succ _))
  infixOp hleft hright := nestsWithin_infixOp hleft (hright.mono (Nat.le_succ _))
  negate {room span t} h := by
    have hnode : (node span (.negate t)).NestsWithin (2 * room + 1) :=
      nestsWithin_node (List.forall_mem_singleton.2 h)
    exact hnode.mono (Nat.le_succ _)
  call _ h := nestsWithin_node (List.forall_mem_singleton.2 (nestsWithin_node h))
  body h := nestsWithin_node h
  expression h := h.mono (Nat.le_succ _)
  statement h _ := nestsWithin_node h

/-- What has no place has the paths of what it has been made of. -/
theorem exists_path_of_unplaced (h : t.unplaced.Path path u) : ∃ u', t.Path path u' ∧ u'.unplaced = u := by
  generalize hs : t.unplaced = s at h
  induction h generalizing t with
  | root => exact ⟨t, .root t, hs⟩
  | @step span shape first child rest u hfirst _ ih =>
    obtain ⟨span', shape'⟩ := t
    rw [unplaced_node] at hs
    cases hs
    rw [Shape.steps_map] at hfirst
    obtain ⟨⟨first', child'⟩, hmem, heq⟩ := List.mem_map.1 hfirst
    cases heq
    obtain ⟨u', hpath, hu⟩ := ih rfl
    exact ⟨u', .step hmem hpath, hu⟩

end Tree

open Abacus.Tree (Step Path)

/-! ## Chains -/

namespace Grammar

/-- The operand of the chains. -/
def one : Expression := .integer ⟨1, by decide⟩

/-- A sum of ones, without parentheses. -/
def sum : Nat → Expression
  | 0 => one
  | n + 1 => .infixOp .add (sum n) one

/-- However long it is, it nests no deeper than two expressions. -/
theorem nesting_sum (n : Nat) : (sum n).nesting ≤ 2 := by
  induction n with
  | zero => decide
  | succ n ih =>
    have hleft : leftEnclosed .add (sum n) = false := by cases n <;> rfl
    rw [sum, Expression.nesting, hleft]
    exact Nat.max_le.2 ⟨ih, by decide⟩

theorem path_sum (n : Nat) :
    (sum n).tree.Path (List.replicate n .left) one.tree := by
  induction n with
  | zero => exact .root _
  | succ n ih => exact .step List.mem_cons_self ih

end Grammar

/-- There are texts with trees of any depth. -/
theorem exists_deep (n : Nat) : ∃ text tree leaf, parse text = .ok tree ∧
    tree.Path (.inward :: List.replicate n .left) leaf ∧ leaf.shape.children = [] := by
  let p : Grammar.Program := [.statement (.expression (Grammar.sum n))]
  have hnesting : ∀ t ∈ p, t.nesting ≤ maxNesting :=
    List.forall_mem_singleton.2 (Nat.le_trans (Grammar.nesting_sum n) (by decide))
  obtain ⟨halike, hscan⟩ := Grammar.stream_print Nat.one_pos p
  obtain ⟨tree, hparse, hunplaced⟩ := Grammar.parse_of_alike hnesting halike hscan
  have hpath : (Grammar.programTree p).Path (.inward :: List.replicate n .left) Grammar.one.tree :=
    .step List.mem_cons_self (Grammar.path_sum n)
  rw [← hunplaced] at hpath
  obtain ⟨leaf, hleaf, hinteger⟩ := Tree.exists_path_of_unplaced hpath
  refine ⟨_, tree, leaf, hparse, hleaf, ?_⟩
  obtain ⟨span, shape⟩ := leaf
  rw [Tree.unplaced_node] at hinteger
  have hnone := congrArg (fun t => t.shape.children) hinteger
  rw [Tree.shape_node, Shape.children_map] at hnone
  exact List.map_eq_nil_iff.1 hnone

/-! ## Texts -/

/-- If only so many steps to left operands follow each other, these are few as well. -/
theorem length_le_of_runs {path : List Step} {m : Nat}
    (h : ∀ n, List.replicate n .left <:+: path → n ≤ m) :
    path.length ≤ (path.count .inward + 1) * m + path.count .inward := by
  -- The run of steps that goes on where the rest of the path begins has `k` steps so far.
  suffices hrun : ∀ k, (∀ n, List.replicate n .left <:+: List.replicate k .left ++ path → n ≤ m) →
      k + path.length ≤ (path.count .inward + 1) * m + path.count .inward by
    simpa using hrun 0 (by simpa using h)
  clear h
  induction path with
  | nil =>
    intro k h
    have hk := h k (by simp)
    simpa using hk
  | cons first rest ih =>
    intro k h
    cases first with
    | left =>
      have hsame : List.replicate k Step.left ++ .left :: rest = List.replicate (k + 1) .left ++ rest := by
        rw [List.replicate_succ', List.append_assoc]
        rfl
      rw [List.count_cons_of_ne (by decide), List.length_cons]
      have hle := ih (k + 1) (hsame ▸ h)
      omega
    | inward =>
      have hk := h k (List.prefix_append _ _).isInfix
      have hle := ih 0 fun n hn => h n (hn.trans ?_)
      · rw [List.count_cons_self, List.length_cons, Nat.add_mul _ 1]
        omega
      · exact ⟨List.replicate k .left ++ [.inward], [], by simp⟩

/-- In the tree of a text that is parsed, the steps other than those to left operands are bounded on every
way down by the depth of nesting that is allowed. So the tree is only deep where chains of operators are
long: its depth is bounded by that and by the runs of steps to left operands. -/
theorem parse_nests_within {text : String} {tree t : Tree} {path : List Step}
    (h : parse text = .ok tree) (hpath : tree.Path path t) :
    path.count .inward ≤ 2 * maxNesting + 2 ∧
      ∀ m, (∀ n, List.replicate n .left <:+: path → n ≤ m) →
        path.length ≤ (2 * maxNesting + 3) * (m + 1) := by
  obtain ⟨-, -, rfl⟩ := parse_ok_iff.1 h
  have hnames : (streamOf text).NamesOnly fun _ => True := fun _ _ _ _ => trivial
  obtain ⟨⟨span, items, heq, hitems⟩, -⟩ := Abacus.Parser.passes_program Tree.builtUp_nestsWithin _ hnames
  rw [heq] at hpath
  have hprogram : (Tree.node span (.program items)).NestsWithin (2 * maxNesting + 2) :=
    Tree.nestsWithin_node hitems
  have hcount := hprogram path t hpath
  refine ⟨hcount, fun m hruns => ?_⟩
  calc path.length ≤ (path.count .inward + 1) * m + path.count .inward := length_le_of_runs hruns
    _ ≤ (2 * maxNesting + 3) * m + (2 * maxNesting + 3) :=
      Nat.add_le_add (Nat.mul_le_mul_right m (by omega)) (by omega)
    _ = (2 * maxNesting + 3) * (m + 1) := (Nat.mul_succ _ _).symm

/-- The sum of a thousand and one ones has a path of so many steps, of which all but one go to left
operands. -/
theorem parse_nests_within_sum : ∃ text tree path leaf, parse text = .ok tree ∧ tree.Path path leaf ∧
    path.length = 1001 ∧ path.count .inward ≤ 2 * maxNesting + 2 ∧
      path.length ≤ (2 * maxNesting + 3) * (1000 + 1) := by
  obtain ⟨text, tree, leaf, hparse, hpath, -⟩ := exists_deep 1000
  obtain ⟨hinward, hlength⟩ := parse_nests_within hparse hpath
  refine ⟨text, tree, _, leaf, hparse, hpath, ?_, hinward, hlength 1000 fun n hn => ?_⟩
  · rw [List.length_cons, List.length_replicate]
  · have hcount := hn.sublist.count_le Step.left
    rwa [List.count_replicate_self, List.count_cons_of_ne (by decide), List.count_replicate_self] at hcount

/-- No multiple of the depth of nesting that is allowed bounds the depth of all trees. -/
theorem depth_unbounded : ¬ ∃ k, ∀ text tree path leaf, parse text = .ok tree → tree.Path path leaf →
    leaf.shape.children = [] → path.length ≤ k * maxNesting := by
  rintro ⟨k, hbound⟩
  obtain ⟨text, tree, leaf, hparse, hpath, hleaf⟩ := exists_deep (k * maxNesting)
  have hle := hbound text tree _ leaf hparse hpath hleaf
  rw [List.length_cons, List.length_replicate] at hle
  exact Nat.not_succ_le_self _ hle

end Abacus
