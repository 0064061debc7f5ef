import Abacus.Tree.TokenStream

/-!
# Parsing expressions

Operators are grouped by their powers (`InfixOp.power`): an expression read with the least power
`least` takes every operator that holds its left operand at least that strongly, and reads the
right operand with the power that the operator holds it with. A minus in front of an operand holds
it more strongly than every operator between two operands.

The first argument of `expression` is the room left for nesting. It goes down with every
expression inside an expression, and at 0 a complaint takes the place of the tree.
-/

namespace Abacus.Parser

/-- The operator that a lexeme stands for between two operands. -/
def infixOf? : Lexeme → Option InfixOp
  | .plus => some .add
  | .minus => some .sub
  | .star => some .mul
  | .slash => some .div
  | .less => some .less
  | .greater => some .greater
  | .equalsEquals => some .equal
  | _ => none

/-- How strongly a minus in front holds its operand. -/
def negatePower : Nat := 8

/-- The tree that stands where no expression could be read. -/
def missing (span : Span) : Tree := .node span (.integer 0)

/-- The arguments of the call of `name`, which starts at `start`. -/
def callOf (inner : Parser Tree) (name : String) (start : Span) : Parser Tree := do
  let (opening, elements) ← parenthesised inner
  let listSpan ← spanFrom opening
  let callSpan ← spanFrom start
  return .node callSpan (.call name (.node listSpan (.list elements)))

/-- A literal, a variable, a call, or an expression in parentheses, which leave no node. What
cannot start an expression is stepped over, unless it is layout. -/
def primary (inner : Parser Tree) : Parser Tree := do
  let start ← currentSpan
  match ← peek with
  | .integer value =>
    advance
    return .node start (.integer value)
  | .floating value =>
    advance
    return .node start (.floating value)
  | .ident name =>
    advance
    if (← peek) = .leftParen then callOf inner name start
    else return .node start (.ident name)
  | .leftParen =>
    advance
    let tree ← inner
    let _ ← expect .rightParen
    return tree
  | found =>
    complain ("expected expression, found " ++ found.description)
    match found with
    | .newline | .eof | .dedent | .indent => pure ()
    | _ => advance
    return missing start

/-- A primary, or a minus and its operand. -/
def operand (expression : Nat → Parser Tree) : Parser Tree := do
  if (← peek) = .minus then
    let start ← currentSpan
    advance
    let tree ← expression negatePower
    return .node (start.merge tree.span) (.negate tree)
  else primary (expression 0)

/-- One round of an operator chain: if an operator of at least the power `least` comes, it and its
right operand are put on the left operand. The flag says that the operator before was a
comparison, which must not be followed by another one. -/
def infixStep (expression : Nat → Parser Tree) (least : Nat) :
    Tree × Bool → Parser ((Tree × Bool) × Bool) := fun (left, compared) => do
  match infixOf? (← peek) with
  | none => return ((left, compared), false)
  | some op =>
    let (leftPower, rightPower) := op.power
    if leftPower < least then return ((left, compared), false)
    else
      if op.isComparison && compared then
        complainWithHelp "comparison operators cannot be chained"
          "parenthesize the first comparison"
      advance
      let right ← expression rightPower
      let tree := Tree.node (left.span.merge right.span) (.infixOp op left right)
      return ((tree, op.isComparison), true)

/-- An expression with the given room for nesting, of operators of at least the given power. -/
def expression : Nat → Nat → Parser Tree
  | 0, _ => do
    complainTooDeep
    return missing (← currentSpan)
  | room + 1, least => do
    let first ← operand (expression room)
    let (tree, _) ← iterate (infixStep (expression room) least) (first, false)
    return tree

end Abacus.Parser
