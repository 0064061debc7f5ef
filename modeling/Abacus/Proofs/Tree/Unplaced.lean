import Abacus.Proofs.Tree.Positions
import Abacus.Tree.Printer

/-!
# Trees without places

Taking the places out of a tree leaves what it says. Two trees that say the same, wherever they stand,
have the same tree without places.

* `Tree.unplaced` — the tree without places;
* `Tree.sexpr_unplaced` — the printed form of a tree does not show places;
* `Tree.StatementAlike.unplaced`, `Tree.ItemAlike.unplaced` — trees that are alike say the same.
-/

namespace Abacus.Tree

mutual

/-- The tree with no place anywhere. -/
def unplaced : Tree → Tree
  | .node _ (.program items) => .node Span.none (.program (unplacedAll items))
  | .node _ (.list items) => .node Span.none (.list (unplacedAll items))
  | .node _ (.integer value) => .node Span.none (.integer value)
  | .node _ (.floating value) => .node Span.none (.floating value)
  | .node _ (.ident name) => .node Span.none (.ident name)
  | .node _ (.infixOp op left right) => .node Span.none (.infixOp op left.unplaced right.unplaced)
  | .node _ (.negate operand) => .node Span.none (.negate operand.unplaced)
  | .node _ (.call name arguments) => .node Span.none (.call name arguments.unplaced)
  | .node _ (.letVar name value) => .node Span.none (.letVar name value.unplaced)
  | .node _ (.setVar name value) => .node Span.none (.setVar name value.unplaced)
  | .node _ (.ifElse condition thenBody none) =>
    .node Span.none (.ifElse condition.unplaced thenBody.unplaced none)
  | .node _ (.ifElse condition thenBody (some elseBody)) =>
    .node Span.none (.ifElse condition.unplaced thenBody.unplaced (some elseBody.unplaced))
  | .node _ (.forLoop index bound body) =>
    .node Span.none (.forLoop index bound.unplaced body.unplaced)
  | .node _ (.giveBack value) => .node Span.none (.giveBack value.unplaced)
  | .node _ (.fnDef name parameters body) => .node Span.none (.fnDef name parameters body.unplaced)
termination_by structural t => t

/-- The trees with no place anywhere. -/
def unplacedAll : List Tree → List Tree
  | [] => []
  | first :: rest => first.unplaced :: unplacedAll rest
termination_by structural ts => ts

end

@[simp] theorem unplacedAll_eq (ts : List Tree) : unplacedAll ts = ts.map unplaced := by
  induction ts with
  | nil => rfl
  | cons t ts ih => rw [unplacedAll, ih, List.map_cons]

/-- The shape of a tree without places, for trees of any shape. -/
theorem unplaced_node (span : Span) (shape : Shape Tree) :
    (node span shape).unplaced = .node Span.none (shape.map unplaced) := by
  cases shape with
  | ifElse _ _ elseBody => cases elseBody <;> rfl
  | program items | list items => simp [unplaced, Shape.map]
  | _ => rfl

@[simp] theorem span_unplaced (t : Tree) : t.unplaced.span = Span.none := by
  obtain ⟨span, shape⟩ := t
  rw [unplaced_node]
  rfl

@[simp] theorem items_unplaced (t : Tree) : t.unplaced.items = t.items.map unplaced := by
  obtain ⟨span, shape⟩ := t
  rw [unplaced_node]
  cases shape <;> rfl

/-! ## Printing -/

mutual

/-- The printed form of a tree does not show where it stands. -/
theorem sexpr_unplaced : ∀ t : Tree, t.unplaced.sexpr = t.sexpr
  | .node _ (.program items) => by simp only [unplaced, sexpr, sexprSeparated_unplaced items]
  | .node _ (.list items) => by simp only [unplaced, sexpr, sexprSeparated_unplaced items]
  | .node _ (.integer _) | .node _ (.floating _) | .node _ (.ident _) => rfl
  | .node _ (.infixOp _ left right) => by
    simp only [unplaced, sexpr, sexpr_unplaced left, sexpr_unplaced right]
  | .node _ (.negate operand) => by simp only [unplaced, sexpr, sexpr_unplaced operand]
  | .node _ (.call _ arguments) => by simp only [unplaced, sexpr, sexprItems_unplaced arguments]
  | .node _ (.letVar _ value) => by simp only [unplaced, sexpr, sexpr_unplaced value]
  | .node _ (.setVar _ value) => by simp only [unplaced, sexpr, sexpr_unplaced value]
  | .node _ (.ifElse condition thenBody none) => by
    simp only [unplaced, sexpr, sexpr_unplaced condition, sexpr_unplaced thenBody]
  | .node _ (.ifElse condition thenBody (some elseBody)) => by
    simp only [unplaced, sexpr, sexpr_unplaced condition, sexpr_unplaced thenBody,
      sexpr_unplaced elseBody]
  | .node _ (.forLoop _ bound body) => by
    simp only [unplaced, sexpr, sexpr_unplaced bound, sexpr_unplaced body]
  | .node _ (.giveBack value) => by simp only [unplaced, sexpr, sexpr_unplaced value]
  | .node _ (.fnDef _ _ body) => by simp only [unplaced, sexpr, sexpr_unplaced body]
termination_by structural t => t

theorem sexprItems_unplaced : ∀ t : Tree, t.unplaced.sexprItems = t.sexprItems
  | .node _ (.program items) => by simp only [unplaced, sexprItems, sexprSeparated_unplaced items]
  | .node _ (.list items) => by simp only [unplaced, sexprItems, sexprSeparated_unplaced items]
  | .node _ (.integer _) | .node _ (.floating _) | .node _ (.ident _) | .node _ (.infixOp ..)
  | .node _ (.negate _) | .node _ (.call ..) | .node _ (.letVar ..) | .node _ (.setVar ..)
  | .node _ (.forLoop ..) | .node _ (.giveBack _) | .node _ (.fnDef ..)
  | .node _ (.ifElse _ _ none) | .node _ (.ifElse _ _ (some _)) => rfl
termination_by structural t => t

theorem sexprSeparated_unplaced : ∀ ts : List Tree, sexprSeparated (unplacedAll ts) = sexprSeparated ts
  | [] => rfl
  | first :: rest => by
    simp only [unplacedAll, sexprSeparated, sexpr_unplaced first, sexprSeparated_unplaced rest]
termination_by structural ts => ts

end

/-! ## Trees that are alike -/

variable {t t' : Tree}

/-- Lists of trees that say the same, one by one. -/
theorem map_unplaced {ts ts' : List Tree} (hlength : ts.length = ts'.length)
    (h : ∀ {t t'}, (t, t') ∈ ts.zip ts' → t.unplaced = t'.unplaced) :
    ts.map unplaced = ts'.map unplaced := by
  have hall : List.Forall₂ (fun t t' => t.unplaced = t'.unplaced) ts ts' :=
    List.forall₂_iff_zip.2 ⟨hlength, h⟩
  induction hall with
  | nil => rfl
  | cons hfirst hrest ih =>
    rw [List.map_cons, List.map_cons, hfirst, ih hrest.length_eq (List.forall₂_iff_zip.1 hrest).2]

theorem ExpressionAlike.unplaced (h : ExpressionAlike t t') : t.unplaced = t'.unplaced := by
  induction h with
  | integer | floating | ident => rfl
  | infixOp _ _ _ _ ihleft ihright => simp only [Tree.unplaced, ihleft, ihright]
  | negate _ _ _ ih => simp only [Tree.unplaced, ih]
  | call _ _ hlength _ ih => simp only [Tree.unplaced, unplacedAll_eq, map_unplaced hlength ih]

theorem StatementAlike.unplaced (h : StatementAlike t t') : t.unplaced = t'.unplaced := by
  induction h with
  | letVar _ _ hvalue | setVar _ _ hvalue | giveBack _ _ hvalue =>
    simp only [Tree.unplaced, hvalue.unplaced]
  | ifThen _ _ hcondition hlength _ ih =>
    simp only [Tree.unplaced, unplacedAll_eq, hcondition.unplaced, map_unplaced hlength ih]
  | ifElse _ _ hcondition hlength _ hlength' _ ih ih' =>
    simp only [Tree.unplaced, unplacedAll_eq, hcondition.unplaced, map_unplaced hlength ih,
      map_unplaced hlength' ih']
  | forLoop _ _ hbound hlength _ ih =>
    simp only [Tree.unplaced, unplacedAll_eq, hbound.unplaced, map_unplaced hlength ih]
  | expression h => exact h.unplaced

theorem ItemAlike.unplaced (h : ItemAlike t t') : t.unplaced = t'.unplaced := by
  cases h with
  | fnDef _ _ hitems =>
    obtain ⟨hlength, hitems⟩ := List.forall₂_iff_zip.1 hitems
    have hbody := map_unplaced hlength fun hmem => (hitems hmem).unplaced
    simp only [Tree.unplaced, unplacedAll_eq, hbody]
  | statement h => exact h.unplaced

theorem map_unplaced_of_alike {items items' : List Tree} (h : List.Forall₂ ItemAlike items items') :
    items.map unplaced = items'.map unplaced := by
  obtain ⟨hlength, hitems⟩ := List.forall₂_iff_zip.1 h
  exact map_unplaced hlength fun hmem => (hitems hmem).unplaced

end Abacus.Tree
