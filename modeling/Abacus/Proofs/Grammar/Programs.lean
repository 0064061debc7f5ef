import Mathlib.Algebra.Group.Nat.Defs
import Abacus.Tree.Statement

/-!
# Programs of the grammar

What can be written, as a type of its own: literals are digits, names are no keywords, bodies are not
empty, and functions stand at the top level only. Every such program stands for a tree, and there is one
list of lexemes that spells it with parentheses only where they are needed and with every body as a block.

* `Expression`, `Statement`, `Body`, `Program` — what can be written;
* `Expression.tree`, `Statement.tree`, `programTree` — the trees, at no place;
* `Expression.nesting`, `Statement.nesting` — how deep they nest;
* `Expression.lexemes`, `Statement.lexemes`, `programLexemes` — how they are spelt.
-/

namespace Abacus.Grammar

/-! ## What can be written -/

/-- The characters make a name. -/
def isName : List Char → Bool
  | [] => false
  | c :: rest => isNameStart c && rest.all isNamePart

/-- A name that is no keyword. -/
structure Name where
  text : String
  wellFormed : isName text.toList = true
  unreserved : Lexeme.keyword? text = none

/-- Decimal digits, at least one. -/
structure Digits where
  chars : List Char
  nonempty : chars ≠ []
  decimal : ∀ c ∈ chars, c.isDigit = true

mutual

/-- Expressions. A literal with a point is given by the digits before and behind it. -/
inductive Expression where
  | integer (value : Fin (2 ^ 63))
  | floating (whole fraction : Digits)
  | variable (name : Name)
  | infixOp (op : InfixOp) (left right : Expression)
  | negate (operand : Expression)
  | call (name : Name) (arguments : Arguments)

/-- The arguments of a call. -/
inductive Arguments where
  | nil
  | cons (first : Expression) (rest : Arguments)

end

mutual

/-- Statements. -/
inductive Statement where
  | letVar (name : Name) (value : Expression)
  | setVar (name : Name) (value : Expression)
  | giveBack (value : Expression)
  | expression (value : Expression)
  | ifThen (condition : Expression) (thenBody : Body)
  | ifElse (condition : Expression) (thenBody elseBody : Body)
  | forLoop (index : Name) (bound : Expression) (body : Body)

/-- The statements of a body, at least one. -/
inductive Body where
  | last (statement : Statement)
  | cons (first : Statement) (rest : Body)

end

/-- What stands at the top level. -/
inductive TopLevel where
  | function (name : Name) (parameters : List Name) (body : Body)
  | statement (statement : Statement)

/-- A whole program. -/
abbrev Program := List TopLevel

/-! ## Trees -/

/-- A node at no place. -/
def nowhere (shape : Shape Tree) : Tree := .node Span.none shape

mutual

/-- The tree of an expression. -/
def Expression.tree : Expression → Tree
  | .integer value => nowhere (.integer (Int64.ofNat value))
  | .floating whole fraction => nowhere (.floating (Literal.float whole.chars fraction.chars 0))
  | .variable name => nowhere (.ident name.text)
  | .infixOp op left right => nowhere (.infixOp op left.tree right.tree)
  | .negate operand => nowhere (.negate operand.tree)
  | .call name arguments => nowhere (.call name.text (nowhere (.list arguments.trees)))

/-- The trees of arguments. -/
def Arguments.trees : Arguments → List Tree
  | .nil => []
  | .cons first rest => first.tree :: rest.trees

end

mutual

/-- The tree of a statement. -/
def Statement.tree : Statement → Tree
  | .letVar name value => nowhere (.letVar name.text value.tree)
  | .setVar name value => nowhere (.setVar name.text value.tree)
  | .giveBack value => nowhere (.giveBack value.tree)
  | .expression value => value.tree
  | .ifThen condition thenBody =>
    nowhere (.ifElse condition.tree (nowhere (.list thenBody.trees)) none)
  | .ifElse condition thenBody elseBody =>
    nowhere (.ifElse condition.tree (nowhere (.list thenBody.trees))
      (some (nowhere (.list elseBody.trees))))
  | .forLoop index bound body =>
    nowhere (.forLoop index.text bound.tree (nowhere (.list body.trees)))

/-- The trees of the statements of a body. -/
def Body.trees : Body → List Tree
  | .last statement => [statement.tree]
  | .cons first rest => first.tree :: rest.trees

end

/-- The tree of what stands at the top level. -/
def TopLevel.tree : TopLevel → Tree
  | .function name parameters body =>
    nowhere (.fnDef name.text (parameters.map Name.text) (nowhere (.list body.trees)))
  | .statement s => s.tree

/-- The tree of a program. -/
def programTree (p : Program) : Tree := nowhere (.program (p.map TopLevel.tree))

/-! ## Parentheses -/

/-- Is it an operator between two operands? -/
def Expression.isInfix : Expression → Bool
  | .infixOp .. => true
  | _ => false

/-- Does the left operand need parentheses? A weaker operator does, and so does a comparison within a
comparison, since comparisons do not associate. -/
def leftEnclosed (op : InfixOp) : Expression → Bool
  | .infixOp inner _ _ => inner.power.1 < op.power.1 || (inner.isComparison && op.isComparison)
  | _ => false

/-- Does the right operand need parentheses? A weaker operator does, and so does one of the same level,
since operators of one level group to the left. -/
def rightEnclosed (op : InfixOp) : Expression → Bool
  | .infixOp inner _ _ => inner.power.1 ≤ op.power.1
  | _ => false

/-! ## Nesting -/

/-- Parentheses are one more level. -/
def deeper (enclosed : Bool) (nesting : Nat) : Nat := if enclosed then nesting + 1 else nesting

mutual

/-- How many expressions are inside each other. What starts with the expression itself is at its
level: a left operand without parentheses adds none. -/
def Expression.nesting : Expression → Nat
  | .integer _ | .floating .. | .variable _ => 1
  | .infixOp op left right =>
    max (deeper (leftEnclosed op left) left.nesting)
      (deeper (rightEnclosed op right) right.nesting + 1)
  | .negate operand => deeper operand.isInfix operand.nesting + 1
  | .call _ arguments => arguments.nesting + 1

/-- The deepest of the arguments. -/
def Arguments.nesting : Arguments → Nat
  | .nil => 0
  | .cons first rest => max first.nesting rest.nesting

end

mutual

/-- How many expressions and bodies are inside each other in a statement. -/
def Statement.nesting : Statement → Nat
  | .letVar _ value | .setVar _ value | .giveBack value | .expression value => value.nesting
  | .ifThen condition thenBody => max condition.nesting (thenBody.nesting + 1)
  | .ifElse condition thenBody elseBody =>
    max condition.nesting (max (thenBody.nesting + 1) (elseBody.nesting + 1))
  | .forLoop _ bound body => max bound.nesting (body.nesting + 1)

/-- The deepest of the statements of a body. -/
def Body.nesting : Body → Nat
  | .last statement => statement.nesting
  | .cons first rest => max first.nesting rest.nesting

end

/-- How many expressions and bodies are inside each other. -/
def TopLevel.nesting : TopLevel → Nat
  | .function _ _ body => body.nesting + 1
  | .statement s => s.nesting

/-! ## Lexemes -/

/-- The lexeme of an operator. -/
def opLexeme : InfixOp → Lexeme
  | .add => .plus
  | .sub => .minus
  | .mul => .star
  | .div => .slash
  | .less => .less
  | .greater => .greater
  | .equal => .equalsEquals

/-- With or without parentheses. -/
def enclose (enclosed : Bool) (ls : List Lexeme) : List Lexeme :=
  if enclosed then .leftParen :: (ls ++ [.rightParen]) else ls

/-- Lists of lexemes with commas between them, in parentheses. -/
def parenthesise (lists : List (List Lexeme)) : List Lexeme :=
  .leftParen :: ([Lexeme.comma].intercalate lists ++ [.rightParen])

mutual

/-- The lexemes of an expression. -/
def Expression.lexemes : Expression → List Lexeme
  | .integer value => [.integer (Int64.ofNat value)]
  | .floating whole fraction => [.floating (Literal.float whole.chars fraction.chars 0)]
  | .variable name => [.ident name.text]
  | .infixOp op left right =>
    enclose (leftEnclosed op left) left.lexemes ++
      opLexeme op :: enclose (rightEnclosed op right) right.lexemes
  | .negate operand => .minus :: enclose operand.isInfix operand.lexemes
  | .call name arguments => .ident name.text :: parenthesise arguments.lexemes

/-- The lexemes of each argument. -/
def Arguments.lexemes : Arguments → List (List Lexeme)
  | .nil => []
  | .cons first rest => first.lexemes :: rest.lexemes

end

/-- The lexemes of a body as a block, from the end of the line before it. -/
def blockLexemes (ls : List Lexeme) : List Lexeme := .newline :: .indent :: (ls ++ [.dedent])

mutual

/-- The lexemes of a statement, with the end of its line or of its last block. -/
def Statement.lexemes : Statement → List Lexeme
  | .letVar name value => .letWord :: .ident name.text :: .equals :: (value.lexemes ++ [.newline])
  | .setVar name value => .ident name.text :: .equals :: (value.lexemes ++ [.newline])
  | .giveBack value => .returnWord :: (value.lexemes ++ [.newline])
  | .expression value => value.lexemes ++ [.newline]
  | .ifThen condition thenBody => .ifWord :: (condition.lexemes ++ blockLexemes thenBody.lexemes)
  | .ifElse condition thenBody elseBody =>
    .ifWord :: (condition.lexemes ++ (blockLexemes thenBody.lexemes ++
      .elseWord :: blockLexemes elseBody.lexemes))
  | .forLoop index bound body =>
    .forWord :: .ident index.text :: .less :: (bound.lexemes ++ blockLexemes body.lexemes)

/-- The lexemes of the statements of a body. -/
def Body.lexemes : Body → List Lexeme
  | .last statement => statement.lexemes
  | .cons first rest => first.lexemes ++ rest.lexemes

end

/-- The lexemes of what stands at the top level. -/
def TopLevel.lexemes : TopLevel → List Lexeme
  | .function name parameters body =>
    .fnWord :: .ident name.text ::
      (parenthesise (parameters.map fun p => [.ident p.text]) ++ blockLexemes body.lexemes)
  | .statement s => s.lexemes

/-- The lexemes of a program. -/
def programLexemes (p : Program) : List Lexeme := p.flatMap TopLevel.lexemes

theorem mem_intercalate {α : Type} {sep : List α} {a : α} {lists : List (List α)}
    (h : a ∈ sep.intercalate lists) : a ∈ sep ∨ ∃ as ∈ lists, a ∈ as := by
  induction lists with
  | nil => simp at h
  | cons as lists ih =>
    cases lists with
    | nil =>
      rw [List.intercalate_singleton] at h
      exact .inr ⟨as, List.mem_cons_self, h⟩
    | cons next lists =>
      rw [List.intercalate_cons_cons, List.mem_append, List.mem_append] at h
      obtain (h | h) | h := h
      · exact .inr ⟨as, List.mem_cons_self, h⟩
      · exact .inl h
      · exact (ih h).imp_right fun ⟨as, hmem, ha⟩ => ⟨as, List.mem_cons_of_mem _ hmem, ha⟩

end Abacus.Grammar
