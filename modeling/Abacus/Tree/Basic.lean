import Abacus.Source.Span

/-!
# Trees

What a source text means as a nesting of statements and expressions. The children of a node are a
parameter of its `Shape`, so that the same shapes serve for nested trees (`Tree`) and for flat
storage in which a child is the number of an earlier node (`Abacus.Tree.Arena`).

The types do not keep statements and expressions apart: a tree built by hand may put either where
the other belongs, and lowering says so.
-/

namespace Abacus

/-- The operators between two operands. -/
inductive InfixOp where
  | add
  | sub
  | mul
  | div
  | less
  | greater
  | equal
  deriving DecidableEq, Repr, Inhabited

namespace InfixOp

/-- How the operator is written. -/
def text : InfixOp → String
  | add => "+"
  | sub => "-"
  | mul => "*"
  | div => "/"
  | less => "<"
  | greater => ">"
  | equal => "=="

/-- Comparisons give 0 or 1, and they do not associate. -/
def isComparison : InfixOp → Bool
  | less | greater | equal => true
  | add | sub | mul | div => false

/-- How strongly the operator holds its left and its right operand. The right one is held more
strongly, so that a chain of operators of one level groups to the left. -/
def power : InfixOp → Nat × Nat
  | less | greater | equal => (2, 3)
  | add | sub => (4, 5)
  | mul | div => (6, 7)

end InfixOp

/-- The kinds of nodes, with children of type `α`. -/
inductive Shape (α : Type) where
  /-- The items of a whole text. -/
  | program (items : List α)
  /-- The statements of a body, or the arguments of a call. -/
  | list (items : List α)
  | integer (value : Int64)
  | floating (value : Float)
  | ident (name : String)
  | infixOp (op : InfixOp) (left right : α)
  | negate (operand : α)
  /-- `arguments` is a list. -/
  | call (name : String) (arguments : α)
  | letVar (name : String) (value : α)
  | setVar (name : String) (value : α)
  /-- The bodies are lists. -/
  | ifElse (condition thenBody : α) (elseBody : Option α)
  /-- Counts `index` from 0 while it is less than `bound`. -/
  | forLoop (index : String) (bound body : α)
  | giveBack (value : α)
  | fnDef (name : String) (parameters : List String) (body : α)
  deriving DecidableEq

namespace Shape

/-- The children of a node, in source order. -/
def children {α : Type} : Shape α → List α
  | program items | list items => items
  | integer _ | floating _ | ident _ => []
  | infixOp _ left right => [left, right]
  | negate operand => [operand]
  | call _ arguments => [arguments]
  | letVar _ value | setVar _ value | giveBack value => [value]
  | ifElse condition thenBody elseBody => condition :: thenBody :: elseBody.toList
  | forLoop _ bound body => [bound, body]
  | fnDef _ _ body => [body]

/-- The same node with other children. -/
def map {α β : Type} (f : α → β) : Shape α → Shape β
  | program items => program (items.map f)
  | list items => list (items.map f)
  | integer value => integer value
  | floating value => floating value
  | ident name => ident name
  | infixOp op left right => infixOp op (f left) (f right)
  | negate operand => negate (f operand)
  | call name arguments => call name (f arguments)
  | letVar name value => letVar name (f value)
  | setVar name value => setVar name (f value)
  | ifElse condition thenBody elseBody => ifElse (f condition) (f thenBody) (elseBody.map f)
  | forLoop index bound body => forLoop index (f bound) (f body)
  | giveBack value => giveBack (f value)
  | fnDef name parameters body => fnDef name parameters (f body)

/-- The short name of a kind of node. -/
def kindName {α : Type} : Shape α → String
  | program _ => "program"
  | list _ => "list"
  | integer _ => "int"
  | floating _ => "float"
  | ident _ => "ident"
  | infixOp .. => "infix"
  | negate _ => "prefix"
  | call .. => "call"
  | letVar .. => "let"
  | setVar .. => "set"
  | ifElse .. => "if"
  | forLoop .. => "for"
  | giveBack _ => "return"
  | fnDef .. => "fn"

theorem children_map {α β : Type} (f : α → β) (s : Shape α) :
    (s.map f).children = s.children.map f := by
  cases s <;> simp [map, children]
  next e => cases e <;> rfl

end Shape

/-- A node of some shape at its place in the source text. -/
inductive Tree where
  | node (span : Span) (shape : Shape Tree)

namespace Tree

instance : Inhabited Tree := ⟨node Span.none (.list [])⟩

/-- Where the tree stands in the source text. -/
def span : Tree → Span
  | node span _ => span

/-- The top node of the tree. -/
def shape : Tree → Shape Tree
  | node _ shape => shape

/-- The items of a program or of a list; anything else has none. -/
def items (t : Tree) : List Tree :=
  match t.shape with
  | .program items | .list items => items
  | _ => []

@[simp] theorem span_node (s : Span) (k : Shape Tree) : (node s k).span = s := rfl

@[simp] theorem shape_node (s : Span) (k : Shape Tree) : (node s k).shape = k := rfl

end Tree

end Abacus
