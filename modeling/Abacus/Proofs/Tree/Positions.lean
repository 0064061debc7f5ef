import Mathlib.Data.List.Forall2
import Abacus.Tree.Basic

/-!
# Where trees stand

The type of trees allows any node anywhere. A tree that is read from a text has expressions where
expressions belong, statements in bodies, and definitions at the top level only; and every node that
stands for a piece of text has a place in it.

* `Span.IsPlace` — a span that says where something stands;
* `Tree.IsExpression`, `Tree.IsStatement`, `Tree.IsItem` — what may stand in a place of each kind;
* `Tree.ExpressionAlike`, `Tree.StatementAlike`, `Tree.ItemAlike` — the same at different places.
-/

namespace Abacus

/-- The span says where in a text something stands: lines count from 1. -/
def Span.IsPlace (span : Span) : Prop := 0 < span.line

namespace Span

theorem IsPlace.ne_none {span : Span} (h : span.IsPlace) : span ≠ Span.none := by
  rintro rfl
  exact Nat.lt_irrefl _ h

theorem IsPlace.merge {a b : Span} (ha : a.IsPlace) (hb : b.IsPlace) : (a.merge b).IsPlace := by
  unfold IsPlace Span.merge
  dsimp only
  split
  · exact hb
  · exact ha

end Span

namespace Tree

/-- The tree is an expression; the arguments of a call are expressions in a list. -/
inductive IsExpression : Tree → Prop
  | integer {span value} : span.IsPlace → IsExpression (.node span (.integer value))
  | floating {span value} : span.IsPlace → IsExpression (.node span (.floating value))
  | ident {span name} : span.IsPlace → IsExpression (.node span (.ident name))
  | infixOp {span op left right} : span.IsPlace → IsExpression left → IsExpression right →
      IsExpression (.node span (.infixOp op left right))
  | negate {span operand} : span.IsPlace → IsExpression operand →
      IsExpression (.node span (.negate operand))
  | call {span name listSpan arguments} : span.IsPlace → (∀ t ∈ arguments, IsExpression t) →
      IsExpression (.node span (.call name (.node listSpan (.list arguments))))

/-- The tree is a statement; bodies are statements in a list. -/
inductive IsStatement : Tree → Prop
  | letVar {span name value} : span.IsPlace → IsExpression value →
      IsStatement (.node span (.letVar name value))
  | setVar {span name value} : span.IsPlace → IsExpression value →
      IsStatement (.node span (.setVar name value))
  | giveBack {span value} : span.IsPlace → IsExpression value →
      IsStatement (.node span (.giveBack value))
  | ifThen {span condition thenSpan thenItems} : span.IsPlace → IsExpression condition →
      (∀ t ∈ thenItems, IsStatement t) →
      IsStatement (.node span (.ifElse condition (.node thenSpan (.list thenItems)) none))
  | ifElse {span condition thenSpan thenItems elseSpan elseItems} : span.IsPlace →
      IsExpression condition → (∀ t ∈ thenItems, IsStatement t) → (∀ t ∈ elseItems, IsStatement t) →
      IsStatement (.node span (.ifElse condition (.node thenSpan (.list thenItems))
        (some (.node elseSpan (.list elseItems)))))
  | forLoop {span index bound bodySpan items} : span.IsPlace → IsExpression bound →
      (∀ t ∈ items, IsStatement t) →
      IsStatement (.node span (.forLoop index bound (.node bodySpan (.list items))))
  | expression {t} : IsExpression t → IsStatement t

/-- The tree is a statement or the definition of a function. -/
inductive IsItem : Tree → Prop
  | fnDef {span name parameters bodySpan items} : span.IsPlace → (∀ t ∈ items, IsStatement t) →
      IsItem (.node span (.fnDef name parameters (.node bodySpan (.list items))))
  | statement {t} : IsStatement t → IsItem t

/-! ## The same trees at different places -/

/-- The trees are the same expression, each in a place of its own. The lists of arguments are
related as by `List.Forall₂`. -/
inductive ExpressionAlike : Tree → Tree → Prop
  | integer {span span' value} : span.IsPlace → span'.IsPlace →
      ExpressionAlike (.node span (.integer value)) (.node span' (.integer value))
  | floating {span span' value} : span.IsPlace → span'.IsPlace →
      ExpressionAlike (.node span (.floating value)) (.node span' (.floating value))
  | ident {span span' name} : span.IsPlace → span'.IsPlace →
      ExpressionAlike (.node span (.ident name)) (.node span' (.ident name))
  | infixOp {span span' op left left' right right'} : span.IsPlace → span'.IsPlace →
      ExpressionAlike left left' → ExpressionAlike right right' →
      ExpressionAlike (.node span (.infixOp op left right)) (.node span' (.infixOp op left' right'))
  | negate {span span' operand operand'} : span.IsPlace → span'.IsPlace →
      ExpressionAlike operand operand' →
      ExpressionAlike (.node span (.negate operand)) (.node span' (.negate operand'))
  | call {span span' name listSpan listSpan' arguments arguments'} : span.IsPlace →
      span'.IsPlace → arguments.length = arguments'.length →
      (∀ {t t'}, (t, t') ∈ arguments.zip arguments' → ExpressionAlike t t') →
      ExpressionAlike (.node span (.call name (.node listSpan (.list arguments))))
        (.node span' (.call name (.node listSpan' (.list arguments'))))

/-- The trees are the same statement, each in a place of its own. -/
inductive StatementAlike : Tree → Tree → Prop
  | letVar {span span' name value value'} : span.IsPlace → span'.IsPlace →
      ExpressionAlike value value' →
      StatementAlike (.node span (.letVar name value)) (.node span' (.letVar name value'))
  | setVar {span span' name value value'} : span.IsPlace → span'.IsPlace →
      ExpressionAlike value value' →
      StatementAlike (.node span (.setVar name value)) (.node span' (.setVar name value'))
  | giveBack {span span' value value'} : span.IsPlace → span'.IsPlace →
      ExpressionAlike value value' →
      StatementAlike (.node span (.giveBack value)) (.node span' (.giveBack value'))
  | ifThen {span span' condition condition' thenSpan thenSpan' thenItems thenItems'} :
      span.IsPlace → span'.IsPlace → ExpressionAlike condition condition' →
      thenItems.length = thenItems'.length →
      (∀ {t t'}, (t, t') ∈ thenItems.zip thenItems' → StatementAlike t t') →
      StatementAlike (.node span (.ifElse condition (.node thenSpan (.list thenItems)) none))
        (.node span' (.ifElse condition' (.node thenSpan' (.list thenItems')) none))
  | ifElse {span span' condition condition' thenSpan thenSpan' thenItems thenItems' elseSpan
      elseSpan' elseItems elseItems'} :
      span.IsPlace → span'.IsPlace → ExpressionAlike condition condition' →
      thenItems.length = thenItems'.length →
      (∀ {t t'}, (t, t') ∈ thenItems.zip thenItems' → StatementAlike t t') →
      elseItems.length = elseItems'.length →
      (∀ {t t'}, (t, t') ∈ elseItems.zip elseItems' → StatementAlike t t') →
      StatementAlike
        (.node span (.ifElse condition (.node thenSpan (.list thenItems))
          (some (.node elseSpan (.list elseItems)))))
        (.node span' (.ifElse condition' (.node thenSpan' (.list thenItems'))
          (some (.node elseSpan' (.list elseItems')))))
  | forLoop {span span' index bound bound' bodySpan bodySpan' items items'} : span.IsPlace →
      span'.IsPlace → ExpressionAlike bound bound' → items.length = items'.length →
      (∀ {t t'}, (t, t') ∈ items.zip items' → StatementAlike t t') →
      StatementAlike (.node span (.forLoop index bound (.node bodySpan (.list items))))
        (.node span' (.forLoop index bound' (.node bodySpan' (.list items'))))
  | expression {t t'} : ExpressionAlike t t' → StatementAlike t t'

/-- The trees are the same statement or the same definition, each in a place of its own. -/
inductive ItemAlike : Tree → Tree → Prop
  | fnDef {span span' name parameters bodySpan bodySpan' items items'} : span.IsPlace →
      span'.IsPlace → List.Forall₂ StatementAlike items items' →
      ItemAlike (.node span (.fnDef name parameters (.node bodySpan (.list items))))
        (.node span' (.fnDef name parameters (.node bodySpan' (.list items'))))
  | statement {t t'} : StatementAlike t t' → ItemAlike t t'

/-- What holds of the left ones of all pairs holds of all trees of the left list. -/
theorem forall_left {holds : Tree → Prop} {ts ts' : List Tree} (hlength : ts.length = ts'.length)
    (h : ∀ {t t'}, (t, t') ∈ ts.zip ts' → holds t) : ∀ t ∈ ts, holds t := by
  intro t hmem
  rw [← List.map_fst_zip (Nat.le_of_eq hlength)] at hmem
  obtain ⟨⟨_, t'⟩, hpair, rfl⟩ := List.mem_map.1 hmem
  exact h hpair

variable {t t' : Tree}

theorem ExpressionAlike.left (h : ExpressionAlike t t') : t.IsExpression := by
  induction h with
  | integer hspan => exact .integer hspan
  | floating hspan => exact .floating hspan
  | ident hspan => exact .ident hspan
  | infixOp hspan _ _ _ ihleft ihright => exact .infixOp hspan ihleft ihright
  | negate hspan _ _ ih => exact .negate hspan ih
  | call hspan _ hlength _ ih => exact .call hspan (forall_left hlength ih)

theorem StatementAlike.left (h : StatementAlike t t') : t.IsStatement := by
  induction h with
  | letVar hspan _ hvalue => exact .letVar hspan hvalue.left
  | setVar hspan _ hvalue => exact .setVar hspan hvalue.left
  | giveBack hspan _ hvalue => exact .giveBack hspan hvalue.left
  | ifThen hspan _ hcondition hlength _ ih =>
    exact .ifThen hspan hcondition.left (forall_left hlength ih)
  | ifElse hspan _ hcondition hlength _ hlength' _ ih ih' =>
    exact .ifElse hspan hcondition.left (forall_left hlength ih) (forall_left hlength' ih')
  | forLoop hspan _ hbound hlength _ ih =>
    exact .forLoop hspan hbound.left (forall_left hlength ih)
  | expression h => exact .expression h.left

theorem ItemAlike.left (h : ItemAlike t t') : t.IsItem := by
  cases h with
  | fnDef hspan _ hitems =>
    obtain ⟨hlength, hitems⟩ := List.forall₂_iff_zip.1 hitems
    exact .fnDef hspan (forall_left hlength fun hmem => (hitems hmem).left)
  | statement h => exact .statement h.left

/-- Two trees that are alike have a place each. -/
theorem ExpressionAlike.isPlace (h : ExpressionAlike t t') : t.span.IsPlace ∧ t'.span.IsPlace := by
  cases h <;> exact ⟨‹_›, ‹_›⟩

end Tree

end Abacus
