import Abacus.Proofs.Grammar.Spelling

/-!
# The layered grammar of expressions

The parser knows the powers of operators. A reader knows layers, each made of the next one:

    comparison := sum [('<' | '>' | '==') sum]
    sum        := product {('+' | '-') product}
    product    := unary {('*' | '/') unary}
    unary      := '-' unary | primary
    primary    := INT | FLOAT | IDENT | IDENT '(' [comparison {',' comparison}] ')' | '(' comparison ')'

Every derivation is read as it is written, up to whatever may follow it.

* `Layer`, `Derivation` — the grammar;
* `Derivation.yield`, `Derivation.tree`, `Derivation.nesting` — what a derivation spells, its tree, and
  how many expressions are inside each other;
* `Ends` — what may follow;
* `Parser.continues` — derivations are read, and operators are read on behind them.
-/

namespace Abacus.Grammar

/-- The layers, the loosest one first. -/
inductive Layer where
  | comparison
  | sum
  | product
  | unary
  | primary
  deriving DecidableEq

/-- The layer that an operator between two operands makes. -/
def layerOf : InfixOp → Layer
  | .less | .greater | .equal => .comparison
  | .add | .sub => .sum
  | .mul | .div => .product

mutual

/-- Derivations of the grammar. A chain of operators is made from the left: what stands before its last
operator is a chain, too. Comparisons make no chains. -/
inductive Derivation : Layer → Type where
  | compared (op : InfixOp) (hop : layerOf op = .comparison) (left right : Derivation .sum) :
      Derivation .comparison
  | ofSum (d : Derivation .sum) : Derivation .comparison
  | added (op : InfixOp) (hop : layerOf op = .sum) (left : Derivation .sum)
      (right : Derivation .product) : Derivation .sum
  | ofProduct (d : Derivation .product) : Derivation .sum
  | multiplied (op : InfixOp) (hop : layerOf op = .product) (left : Derivation .product)
      (right : Derivation .unary) : Derivation .product
  | ofUnary (d : Derivation .unary) : Derivation .product
  | negated (operand : Derivation .unary) : Derivation .unary
  | ofPrimary (d : Derivation .primary) : Derivation .unary
  | integer (value : Int64) : Derivation .primary
  | floating (value : Float) : Derivation .primary
  | variable (name : String) : Derivation .primary
  | call (name : String) (arguments : Derivations) : Derivation .primary
  | enclosed (d : Derivation .comparison) : Derivation .primary

/-- Derivations of the arguments of a call. -/
inductive Derivations : Type where
  | nil
  | cons (first : Derivation .comparison) (rest : Derivations)

end

variable {l : Layer}

mutual

/-- The lexemes that a derivation spells. -/
def Derivation.yield : {l : Layer} → Derivation l → List Lexeme
  | _, .compared op _ left right => left.yield ++ opLexeme op :: right.yield
  | _, .added op _ left right => left.yield ++ opLexeme op :: right.yield
  | _, .multiplied op _ left right => left.yield ++ opLexeme op :: right.yield
  | _, .ofSum d => d.yield
  | _, .ofProduct d => d.yield
  | _, .ofUnary d => d.yield
  | _, .ofPrimary d => d.yield
  | _, .negated operand => .minus :: operand.yield
  | _, .integer value => [.integer value]
  | _, .floating value => [.floating value]
  | _, .variable name => [.ident name]
  | _, .call name arguments => .ident name :: parenthesise arguments.yields
  | _, .enclosed d => .leftParen :: (d.yield ++ [.rightParen])

/-- The lexemes of each argument. -/
def Derivations.yields : Derivations → List (List Lexeme)
  | .nil => []
  | .cons first rest => first.yield :: rest.yields

end

mutual

/-- The tree of a derivation. Parentheses leave no node. -/
def Derivation.tree : {l : Layer} → Derivation l → Tree
  | _, .compared op _ left right => nowhere (.infixOp op left.tree right.tree)
  | _, .added op _ left right => nowhere (.infixOp op left.tree right.tree)
  | _, .multiplied op _ left right => nowhere (.infixOp op left.tree right.tree)
  | _, .ofSum d => d.tree
  | _, .ofProduct d => d.tree
  | _, .ofUnary d => d.tree
  | _, .ofPrimary d => d.tree
  | _, .negated operand => nowhere (.negate operand.tree)
  | _, .integer value => nowhere (.integer value)
  | _, .floating value => nowhere (.floating value)
  | _, .variable name => nowhere (.ident name)
  | _, .call name arguments => nowhere (.call name (nowhere (.list arguments.trees)))
  | _, .enclosed d => d.tree

/-- The trees of the arguments. -/
def Derivations.trees : Derivations → List Tree
  | .nil => []
  | .cons first rest => first.tree :: rest.trees

end

mutual

/-- How many expressions are inside each other. Parentheses, a minus in front, a list of arguments and the
operand behind an operator are one level each; what an expression starts with is at its own level. -/
def Derivation.nesting : {l : Layer} → Derivation l → Nat
  | _, .compared _ _ left right => max left.nesting (right.nesting + 1)
  | _, .added _ _ left right => max left.nesting (right.nesting + 1)
  | _, .multiplied _ _ left right => max left.nesting (right.nesting + 1)
  | _, .ofSum d => d.nesting
  | _, .ofProduct d => d.nesting
  | _, .ofUnary d => d.nesting
  | _, .ofPrimary d => d.nesting
  | _, .negated operand => operand.nesting + 1
  | _, .integer _ => 1
  | _, .floating _ => 1
  | _, .variable _ => 1
  | _, .call _ arguments => arguments.nesting + 1
  | _, .enclosed d => d.nesting + 1

/-- The deepest of the arguments. -/
def Derivations.nesting : Derivations → Nat
  | .nil => 0
  | .cons first rest => max first.nesting rest.nesting

end

/-! ## First and last lexemes -/

theorem Derivation.yield_start : {l : Layer} → (d : Derivation l) →
    ∃ first rest, d.yield = first :: rest ∧ startsExpression first = true
  | _, .compared _ _ left _ | _, .added _ _ left _ | _, .multiplied _ _ left _ => by
    obtain ⟨first, rest, hyield, hfirst⟩ := left.yield_start
    exact ⟨first, _, by rw [yield, hyield]; rfl, hfirst⟩
  | _, .ofSum d | _, .ofProduct d | _, .ofUnary d | _, .ofPrimary d => d.yield_start
  | _, .negated _ | _, .integer _ | _, .floating _ | _, .variable _ | _, .call _ _ | _, .enclosed _ =>
    ⟨_, _, rfl, rfl⟩

theorem Derivations.yields_start (ds : Derivations) :
    ∀ ls ∈ ds.yields.head?, ∃ first rest, ls = first :: rest ∧ first ≠ .rightParen := by
  cases ds with
  | nil => simp [yields]
  | cons d ds =>
    rintro ls ⟨⟩
    obtain ⟨first, rest, hyield, hfirst⟩ := d.yield_start
    exact ⟨first, rest, hyield, by rintro rfl; cases hfirst⟩

theorem Derivation.nesting_pos : {l : Layer} → (d : Derivation l) → 0 < d.nesting
  | _, .compared .. | _, .added .. | _, .multiplied .. =>
    Nat.lt_of_lt_of_le (Nat.succ_pos _) (Nat.le_max_right _ _)
  | _, .ofSum d | _, .ofProduct d | _, .ofUnary d | _, .ofPrimary d => d.nesting_pos
  | _, .negated _ | _, .integer _ | _, .floating _ | _, .variable _ | _, .call _ _ | _, .enclosed _ =>
    Nat.succ_pos _

theorem Derivation.span_tree : {l : Layer} → (d : Derivation l) → d.tree.span = Span.none
  | _, .compared .. | _, .added .. | _, .multiplied .. => rfl
  | _, .ofSum d | _, .ofProduct d | _, .ofUnary d | _, .ofPrimary d | _, .enclosed d => d.span_tree
  | _, .negated _ | _, .integer _ | _, .floating _ | _, .variable _ | _, .call _ _ => rfl

/-- The last lexeme is a name. -/
def EndsInName (ls : List Lexeme) : Prop := ∃ name, ls.getLast? = some (.ident name)

theorem endsInName_append {ls ls' : List Lexeme} (h : ls' ≠ []) :
    EndsInName (ls ++ ls') ↔ EndsInName ls' := by
  unfold EndsInName
  rw [List.getLast?_append_of_ne_nil ls h]

theorem not_endsInName_closed (ls : List Lexeme) : ¬EndsInName (ls ++ [.rightParen]) := by
  rintro ⟨name, hlast⟩
  rw [List.getLast?_concat] at hlast
  cases hlast

theorem Derivation.endsInName_cons (d : Derivation l) {first : Lexeme} :
    EndsInName (first :: d.yield) ↔ EndsInName d.yield := by
  obtain ⟨_, _, hyield, -⟩ := d.yield_start
  rw [hyield, ← List.singleton_append, endsInName_append (List.cons_ne_nil _ _)]

/-- What is made with an operator ends as its right operand does. -/
theorem Derivation.endsInName_infixOp (d : Derivation l) {ls : List Lexeme} {op : InfixOp} :
    EndsInName (ls ++ opLexeme op :: d.yield) ↔ EndsInName d.yield := by
  rw [endsInName_append (List.cons_ne_nil _ _), d.endsInName_cons]

/-! ## Powers -/

/-- How strongly an operator may hold something of the layer on its left. -/
def Layer.power : Layer → Nat
  | .comparison => 2
  | .sum => 4
  | .product => 6
  | .unary | .primary => Parser.negatePower

theorem power_layerOf (op : InfixOp) : op.power.1 = (layerOf op).power := by
  cases op <;> rfl

theorem isComparison_eq (op : InfixOp) : op.isComparison = decide (layerOf op = .comparison) := by
  cases op <;> rfl

/-- What may come behind the lexemes of an expression that is read with the power `least`: no operator of
that power, and no list of arguments behind a name. -/
structure Ends (least : Nat) (ls tail : List Lexeme) : Prop where
  weaker : ∀ op, Parser.infixOf? (tail.headD .eof) = some op → op.power.1 < least
  apart : EndsInName ls → tail.headD .eof ≠ .leftParen

theorem Ends.mono {least least' : Nat} {ls ls' tail : List Lexeme} (h : Ends least ls tail)
    (hle : least ≤ least') (hname : EndsInName ls' → EndsInName ls) : Ends least' ls' tail where
  weaker op hop := Nat.lt_of_lt_of_le (h.weaker op hop) hle
  apart hends := h.apart (hname hends)

theorem ends_of_head {least : Nat} {ls tail : List Lexeme} {first : Lexeme}
    (h : tail.headD .eof = first) (hparen : first ≠ .leftParen) (hop : Parser.infixOf? first = none) :
    Ends least ls tail where
  weaker op hop' := by
    rw [h, hop] at hop'
    cases hop'
  apart _ := by rwa [h]

/-- No operator is stronger than a minus in front. -/
theorem ends_negatePower {ls tail : List Lexeme} (h : EndsInName ls → tail.headD .eof ≠ .leftParen) :
    Ends Parser.negatePower ls tail := ⟨fun op _ => power_lt_negatePower op, h⟩

/-- A weaker operator may come behind anything. -/
theorem ends_opLexeme {least : Nat} {ls tail : List Lexeme} {op : InfixOp} (h : op.power.1 < least) :
    Ends least ls (opLexeme op :: tail) where
  weaker := (Parser.stops_opLexeme h).2
  apart _ := (Parser.stops_opLexeme h).1

end Abacus.Grammar

namespace Abacus.Parser

open TokenStream (bare)
open Grammar

variable {l : Layer} {room least : Nat}

/-! ## Derivations are read -/

/-- Is it a comparison? -/
def comparing : {l : Layer} → Derivation l → Bool
  | _, .compared .. => true
  | _, _ => false

theorem comparing_eq_false (h : l ≠ .comparison) (d : Derivation l) : comparing d = false := by
  cases d with
  | compared => exact absurd rfl h
  | _ => rfl

/-- Operators are read on behind the derivation, if there is room for it. -/
def Continues (d : Derivation l) : Prop :=
  ∀ room least, d.nesting ≤ room + 1 → least ≤ l.power →
    Chains d.yield (d.tree, comparing d) room least (Ends (l.power + 1) d.yield)

theorem Continues.expression {d : Derivation l} (h : Continues d) (hroom : d.nesting ≤ room)
    (hleast : least ≤ l.power) :
    Consumes (expression room least) d.yield (Ends least d.yield) d.tree := by
  cases room with
  | zero => exact absurd hroom (Nat.not_le.2 d.nesting_pos)
  | succ room =>
    have hends : ∀ tail, Ends least d.yield tail → Ends (l.power + 1) d.yield tail :=
      fun tail htail => htail.mono (Nat.le_succ_of_le hleast) id
    exact (h room least hroom hleast).expression hends fun _ htail => htail.weaker

/-- A left operand that is no comparison, an operator that holds it, and a right operand of a tighter
layer. -/
theorem Continues.infixOp {op : InfixOp} {o r : Layer} {left : Derivation l} {right : Derivation r}
    (hleft : Continues left) (hright : Continues right) (hop : layerOf op = o)
    (hl : o.power ≤ l.power) (hcomparison : l ≠ .comparison) (hr : o.power + 1 ≤ r.power)
    (hroom : max left.nesting (right.nesting + 1) ≤ room + 1) (hleast : least ≤ o.power) :
    Chains (left.yield ++ opLexeme op :: right.yield) (nowhere (.infixOp op left.tree right.tree),
      decide (o = .comparison)) room least
      (Ends (o.power + 1) (left.yield ++ opLexeme op :: right.yield)) := by
  subst hop
  obtain ⟨hroomLeft, hroomRight⟩ := Nat.max_le.1 hroom
  rw [← power_layerOf, ← power_snd] at hr
  rw [← power_layerOf] at hl hleast
  have hfirst := hleft room least hroomLeft (Nat.le_trans hleast hl)
  have hsecond : Consumes (Parser.expression room op.power.2) right.yield
      (Ends op.power.2 (left.yield ++ opLexeme op :: right.yield)) right.tree :=
    (hright.expression (Nat.le_of_succ_le_succ hroomRight) hr).mono
      fun tail htail => htail.mono (Nat.le_refl _) right.endsInName_infixOp.2
  have hflag : (op.isComparison && comparing left) = false := by
    rw [comparing_eq_false hcomparison, Bool.and_false]
  rw [← power_layerOf, ← power_snd, ← isComparison_eq]
  exact hfirst.infixOp (fun _ => ends_opLexeme (Nat.lt_succ_of_le hl)) hleast hflag hsecond
    ⟨left.span_tree, right.span_tree⟩

/-- What a layer is made of is read as part of it. -/
theorem Continues.loosen {l' : Layer} {d : Derivation l} {d' : Derivation l'} (h : Continues d)
    (hyield : d'.yield = d.yield) (htree : d'.tree = d.tree) (hnesting : d'.nesting = d.nesting)
    (hpower : l'.power ≤ l.power) (hflag : comparing d = comparing d') : Continues d' := by
  intro room least hroom hleast
  rw [hyield, htree, ← hflag]
  refine fun read tail htail => h room least (hnesting ▸ hroom) (Nat.le_trans hleast hpower) read tail ?_
  exact htail.mono (Nat.succ_le_succ hpower) id

/-- An operand is a chain without operators. -/
theorem continues_operand {d : Derivation l} (hcomparing : comparing d = false)
    (h : ∀ room, d.nesting ≤ room + 1 →
      Consumes (operand (expression room)) d.yield (Ends (l.power + 1) d.yield) d.tree) :
    Continues d := by
  intro room least hroom _
  rw [hcomparing]
  exact Chains.of_operand (h room hroom)

mutual

/-- Every derivation is read to its end, and operators are read on behind it. -/
theorem continues : {l : Layer} → (d : Derivation l) → Continues d
  | _, .compared _ hop left right => fun _ _ hroom hleast =>
    (continues left).infixOp (continues right) hop (by decide) (by decide) (by decide) hroom hleast
  | _, .added _ hop left right => fun _ _ hroom hleast =>
    (continues left).infixOp (continues right) hop (by decide) (by decide) (by decide) hroom hleast
  | _, .multiplied _ hop left right => fun _ _ hroom hleast =>
    (continues left).infixOp (continues right) hop (by decide) (by decide) (by decide) hroom hleast
  | _, .ofSum d => (continues d).loosen rfl rfl rfl (by decide) (comparing_eq_false (by decide) d)
  | _, .ofProduct d => (continues d).loosen rfl rfl rfl (by decide) (comparing_eq_false (by decide) d)
  | _, .ofUnary d => (continues d).loosen rfl rfl rfl (by decide) (comparing_eq_false (by decide) d)
  | _, .ofPrimary d => (continues d).loosen rfl rfl rfl (by decide) (comparing_eq_false (by decide) d)
  | _, .negated d => by
    refine continues_operand rfl fun room hroom => Consumes.peek ?_
    rw [if_pos rfl]
    refine Consumes.placed ((consumes_advance _).then ?_)
    have hinner := (continues d).expression (Nat.le_of_succ_le_succ hroom) (Nat.le_refl _)
    have hends : Consumes (expression room negatePower) d.yield
        (Ends (negatePower + 1) (.minus :: d.yield)) d.tree :=
      hinner.mono fun tail htail => ends_negatePower fun hname => htail.apart (d.endsInName_cons.2 hname)
    refine hends.finish ?_
    rw [d.span_tree, Span.merge_self]
    exact consumes_pure _
  | _, .integer _ | _, .floating _ => by
    refine continues_operand rfl fun room _ => consumes_operand (by simp) (Consumes.placed ?_)
    exact Consumes.peek ((consumes_advance _).finish (consumes_pure _))
  | _, .variable name => by
    refine continues_operand rfl fun room _ => consumes_operand (by simp) ?_
    exact (consumes_variable name).mono fun _ htail => htail.apart ⟨name, rfl⟩
  | _, .call name arguments => by
    refine continues_operand rfl fun room hroom => consumes_operand (by simp) (Consumes.placed ?_)
    refine Consumes.peek ((consumes_advance _).then (Consumes.peek ?_))
    rw [if_pos rfl]
    exact consumes_callOf name (elements_read arguments room (Nat.le_of_succ_le_succ hroom))
      arguments.yields_start
  | _, .enclosed d => by
    refine continues_operand rfl fun room hroom => ?_
    have hinner := (continues d).expression (Nat.le_of_succ_le_succ hroom) (Nat.zero_le _)
    exact consumes_enclosed hinner fun _ => ends_of_head rfl (by simp) rfl

/-- Arguments are read. -/
theorem elements_read : ∀ (ds : Derivations) (room : Nat), ds.nesting ≤ room →
    Elements (expression room 0) ds.yields ds.trees
  | .nil, _, _ => .nil
  | .cons d ds, room, hroom => by
    obtain ⟨hfirst, hrest⟩ := Nat.max_le.1 hroom
    refine .cons ?_ (elements_read ds room hrest)
    refine ((continues d).expression hfirst (Nat.zero_le _)).mono fun tail htail => ?_
    obtain htail | htail := htail
    · exact ends_of_head htail (by simp) rfl
    · exact ends_of_head htail (by simp) rfl

end

end Abacus.Parser
