import Abacus.Tree.Basic

/-!
# Trees under other names

A renaming replaces the names in a tree, wherever they stand: where a variable or a function is used, and
where one is defined. Places and the form of the tree stay.

* `Tree.rename` — the tree under other names;
* `Tree.items_rename`, `Tree.span_rename` — what stays of its form.
-/

namespace Abacus.Tree

mutual

/-- The tree with other names. -/
def rename (ρ : String → String) : Tree → Tree
  | .node span (.program items) => .node span (.program (renameAll ρ items))
  | .node span (.list items) => .node span (.list (renameAll ρ items))
  | .node span (.integer value) => .node span (.integer value)
  | .node span (.floating value) => .node span (.floating value)
  | .node span (.ident name) => .node span (.ident (ρ name))
  | .node span (.infixOp op left right) => .node span (.infixOp op (left.rename ρ) (right.rename ρ))
  | .node span (.negate operand) => .node span (.negate (operand.rename ρ))
  | .node span (.call name arguments) => .node span (.call (ρ name) (arguments.rename ρ))
  | .node span (.letVar name value) => .node span (.letVar (ρ name) (value.rename ρ))
  | .node span (.setVar name value) => .node span (.setVar (ρ name) (value.rename ρ))
  | .node span (.ifElse condition thenBody none) =>
    .node span (.ifElse (condition.rename ρ) (thenBody.rename ρ) none)
  | .node span (.ifElse condition thenBody (some elseBody)) =>
    .node span (.ifElse (condition.rename ρ) (thenBody.rename ρ) (some (elseBody.rename ρ)))
  | .node span (.forLoop index bound body) =>
    .node span (.forLoop (ρ index) (bound.rename ρ) (body.rename ρ))
  | .node span (.giveBack value) => .node span (.giveBack (value.rename ρ))
  | .node span (.fnDef name parameters body) =>
    .node span (.fnDef (ρ name) (parameters.map ρ) (body.rename ρ))
termination_by structural t => t

/-- The trees with other names. -/
def renameAll (ρ : String → String) : List Tree → List Tree
  | [] => []
  | first :: rest => first.rename ρ :: renameAll ρ rest
termination_by structural ts => ts

end

variable (ρ : String → String)

@[simp] theorem renameAll_eq (ts : List Tree) : renameAll ρ ts = ts.map (rename ρ) := by
  induction ts with
  | nil => rfl
  | cons t ts ih => rw [renameAll, ih, List.map_cons]

@[simp] theorem span_rename (t : Tree) : (t.rename ρ).span = t.span := by
  obtain ⟨span, shape⟩ := t
  cases shape with
  | ifElse _ _ elseBody => cases elseBody <;> rfl
  | _ => rfl

@[simp] theorem items_rename (t : Tree) : (t.rename ρ).items = t.items.map (rename ρ) := by
  obtain ⟨span, shape⟩ := t
  cases shape with
  | program items | list items => exact renameAll_eq ρ items
  | ifElse _ _ elseBody => cases elseBody <;> rfl
  | _ => rfl

end Abacus.Tree
