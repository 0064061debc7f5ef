import Abacus.Tree.Basic

/-!
# Trees in flat storage

An `Arena` keeps nodes in a row; a node names its children by their numbers, and a child comes
before its parent. Two parents may share a child.

* `Arena.tree?` — the tree below the root;
* `Tree.toArena` — the nodes of a tree, children before parents and in source order.
-/

namespace Abacus

/-- A node that names its children by number. -/
structure FlatNode where
  span : Span
  shape : Shape Nat
  deriving DecidableEq

/-- Nodes in a row, and the number of the root. -/
structure Arena where
  nodes : Array FlatNode
  root? : Option Nat

namespace Arena

/-- An arena without nodes. -/
def empty : Arena := ⟨#[], none⟩

/-- Is there no node? -/
def isEmpty (a : Arena) : Bool := a.nodes.isEmpty

/-- The trees below the nodes, in the order of the nodes. A node sees the trees of the nodes before
it only, so a child that does not come first stands for an empty list. -/
def trees (nodes : Array FlatNode) : Array Tree :=
  nodes.foldl
    (fun built node =>
      built.push (.node node.span (node.shape.map fun child => built.getD child default)))
    #[]

/-- The tree below the root. -/
def tree? (a : Arena) : Option Tree := a.root?.bind fun root => (trees a.nodes)[root]?

end Arena

namespace Tree

mutual

/-- Places a tree behind the given nodes; its own node comes last. -/
def place : Tree → Array FlatNode → Array FlatNode
  | .node span (.program items), nodes =>
    let (nodes, ids) := placeAll items nodes
    nodes.push ⟨span, .program ids⟩
  | .node span (.list items), nodes =>
    let (nodes, ids) := placeAll items nodes
    nodes.push ⟨span, .list ids⟩
  | .node span (.integer value), nodes => nodes.push ⟨span, .integer value⟩
  | .node span (.floating value), nodes => nodes.push ⟨span, .floating value⟩
  | .node span (.ident name), nodes => nodes.push ⟨span, .ident name⟩
  | .node span (.infixOp op left right), nodes =>
    let afterLeft := place left nodes
    let afterRight := place right afterLeft
    afterRight.push ⟨span, .infixOp op (afterLeft.size - 1) (afterRight.size - 1)⟩
  | .node span (.negate operand), nodes =>
    let after := place operand nodes
    after.push ⟨span, .negate (after.size - 1)⟩
  | .node span (.call name arguments), nodes =>
    let after := place arguments nodes
    after.push ⟨span, .call name (after.size - 1)⟩
  | .node span (.letVar name value), nodes =>
    let after := place value nodes
    after.push ⟨span, .letVar name (after.size - 1)⟩
  | .node span (.setVar name value), nodes =>
    let after := place value nodes
    after.push ⟨span, .setVar name (after.size - 1)⟩
  | .node span (.ifElse condition thenBody none), nodes =>
    let afterCondition := place condition nodes
    let afterThen := place thenBody afterCondition
    afterThen.push ⟨span, .ifElse (afterCondition.size - 1) (afterThen.size - 1) none⟩
  | .node span (.ifElse condition thenBody (some elseBody)), nodes =>
    let afterCondition := place condition nodes
    let afterThen := place thenBody afterCondition
    let afterElse := place elseBody afterThen
    afterElse.push
      ⟨span, .ifElse (afterCondition.size - 1) (afterThen.size - 1) (some (afterElse.size - 1))⟩
  | .node span (.forLoop index bound body), nodes =>
    let afterBound := place bound nodes
    let afterBody := place body afterBound
    afterBody.push ⟨span, .forLoop index (afterBound.size - 1) (afterBody.size - 1)⟩
  | .node span (.giveBack value), nodes =>
    let after := place value nodes
    after.push ⟨span, .giveBack (after.size - 1)⟩
  | .node span (.fnDef name parameters body), nodes =>
    let after := place body nodes
    after.push ⟨span, .fnDef name parameters (after.size - 1)⟩
termination_by structural t => t

/-- Places trees one after the other, with the numbers of their own nodes. -/
def placeAll : List Tree → Array FlatNode → Array FlatNode × List Nat
  | [], nodes => (nodes, [])
  | first :: rest, nodes =>
    let afterFirst := place first nodes
    let (nodes, ids) := placeAll rest afterFirst
    (nodes, (afterFirst.size - 1) :: ids)
termination_by structural l => l

end

/-- The nodes of a tree in a row; the root is the last. -/
def toArena (t : Tree) : Arena :=
  let nodes := place t #[]
  ⟨nodes, some (nodes.size - 1)⟩

end Tree

end Abacus
