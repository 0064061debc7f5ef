import Abacus.Proofs.Grammar.Programs
import Abacus.Proofs.Tree.Abreast

/-!
# What spells an expression is parsed to its tree

The lexemes of an expression, at no place, are parsed to the tree of the expression, and nothing is
complained about. An operand and the operators behind it are one loop of the parser. So what is shown of
an expression is that this loop, started in front of it, comes to go on behind it with its tree as the
left operand.

* `TokenStream.bare` — streams of lexemes at no place;
* `Parser.Consumes` — a parser takes given lexemes and gives a result, whatever it has read before;
* `Parser.Chains`, `Parser.Chained` — the loop over operators comes to go on behind what it has read;
* `Parser.chained`, `Parser.Chained.expression` — expressions are read as they are spelt.
-/

namespace Abacus

namespace TokenStream

/-- A stream of lexemes at no place, with those that have been read already. -/
def bare (read ls : List Lexeme) : TokenStream where
  previous? := read.getLast?.map fun l => ⟨l, Span.none⟩
  rest := ls.map fun l => ⟨l, Span.none⟩
  finish := Span.none
  complaints := #[]

variable {read ls : List Lexeme} {l : Lexeme}

@[simp] theorem lexemes_bare : (bare read ls).lexemes = ls := by
  simp [lexemes, bare, Function.comp_def]

@[simp] theorem length_rest_bare : (bare read ls).rest.length = ls.length := List.length_map _

@[simp] theorem lexeme_current_bare : (bare read ls).current.lexeme = ls.headD .eof := by
  cases ls <;> rfl

@[simp] theorem lexeme_second_bare : (bare read ls).second.lexeme = (ls.drop 1).headD .eof := by
  cases ls with
  | nil => rfl
  | cons _ ls => cases ls <;> rfl

@[simp] theorem span_current_bare : (bare read ls).current.span = Span.none := by
  cases ls <;> rfl

@[simp] theorem previousSpan_bare : (bare read ls).previousSpan = Span.none := by
  unfold previousSpan
  cases hlast : read.getLast? with
  | none => simp [bare, hlast, current]
  | some l => simp [bare, hlast]

@[simp] theorem advance_bare : (bare read (l :: ls)).advance = bare (read ++ [l]) ls := by
  simp [advance, bare]

end TokenStream

namespace Grammar

/-! ## First lexemes -/

/-- The lexemes that an expression starts with. -/
def startsExpression : Lexeme → Bool
  | .integer _ | .floating _ | .ident _ | .leftParen | .minus => true
  | _ => false

theorem Expression.lexemes_start : ∀ e : Expression,
    ∃ l rest, e.lexemes = l :: rest ∧ startsExpression l = true
  | .integer _ | .floating .. | .variable _ | .negate _ | .call .. => ⟨_, _, rfl, rfl⟩
  | .infixOp op left right => by
    rw [Expression.lexemes]
    cases leftEnclosed op left with
    | true => exact ⟨_, _, rfl, rfl⟩
    | false =>
      obtain ⟨l, rest, hlexemes, hl⟩ := left.lexemes_start
      exact ⟨l, _, by rw [enclose, if_neg Bool.false_ne_true, hlexemes]; rfl, hl⟩

theorem Arguments.lexemes_start (arguments : Arguments) :
    ∀ ls ∈ arguments.lexemes.head?, ∃ l rest, ls = l :: rest ∧ l ≠ .rightParen := by
  cases arguments with
  | nil => simp [Arguments.lexemes]
  | cons first rest =>
    rintro ls ⟨⟩
    obtain ⟨l, more, hlexemes, hl⟩ := first.lexemes_start
    exact ⟨l, more, hlexemes, by rintro rfl; cases hl⟩

theorem Expression.nesting_pos (e : Expression) : 0 < e.nesting := by
  cases e with
  | infixOp => exact Nat.lt_of_lt_of_le (Nat.succ_pos _) (Nat.le_max_right _ _)
  | _ => exact Nat.succ_pos _

theorem Expression.span_tree (e : Expression) : e.tree.span = Span.none := by
  cases e <;> rfl

/-! ## Operators -/

/-- The operator that the expression is made with, if any, is of at least the power `least`. -/
def Expression.Fits (least : Nat) : Expression → Prop
  | .infixOp op _ _ => least ≤ op.power.1
  | _ => True

/-- Is it a comparison? -/
def Expression.compares : Expression → Bool
  | .infixOp op _ _ => op.isComparison
  | _ => false

/-- How strongly the last operand is held. -/
def Expression.binds : Expression → Nat
  | .infixOp op _ _ => op.power.2
  | _ => Parser.negatePower

theorem power_lt_negatePower (op : InfixOp) : op.power.1 < Parser.negatePower := by
  cases op <;> decide

theorem power_snd (op : InfixOp) : op.power.2 = op.power.1 + 1 := by
  cases op <;> rfl

theorem infixOf_opLexeme (op : InfixOp) : Parser.infixOf? (opLexeme op) = some op := by
  cases op <;> rfl

/-- A left operand holds its last operand more strongly than the operator behind it, and there are not
two comparisons: otherwise it has parentheses. -/
theorem left_operand (op : InfixOp) (left : Expression) :
    op.power.1 < (if leftEnclosed op left then Parser.negatePower else left.binds) ∧
      (op.isComparison && (!leftEnclosed op left && left.compares)) = false ∧
      (leftEnclosed op left = false → ∀ least ≤ op.power.1, left.Fits least) := by
  cases hflag : leftEnclosed op left with
  | true => exact ⟨power_lt_negatePower op, Bool.and_false _, nofun⟩
  | false =>
    cases left with
    | infixOp inner _ _ =>
      simp only [leftEnclosed, Bool.or_eq_false_iff, decide_eq_false_iff_not, Nat.not_lt] at hflag
      refine ⟨?_, ?_, fun _ least hleast => Nat.le_trans hleast hflag.1⟩
      · rw [if_neg Bool.false_ne_true, Expression.binds, power_snd]
        exact Nat.lt_succ_of_le hflag.1
      · rw [Expression.compares, Bool.not_false, Bool.true_and, Bool.and_comm]
        exact hflag.2
    | _ => exact ⟨power_lt_negatePower op, Bool.and_false _, fun _ _ _ => trivial⟩

/-- A right operand without parentheses is made with a stronger operator. -/
theorem fits_of_right {op : InfixOp} {right : Expression} (h : rightEnclosed op right = false) :
    right.Fits op.power.2 := by
  cases right with
  | infixOp inner _ _ =>
    simp only [rightEnclosed, decide_eq_false_iff_not, Nat.not_le] at h
    rw [Expression.Fits, power_snd]
    exact h
  | _ => trivial

end Grammar

namespace Parser

open TokenStream (bare)
open Grammar

variable {α β : Type} {p : Parser α} {a : α} {b : β} {ls ls' : List Lexeme}
  {before before' : List Lexeme → Prop}

/-- Before what satisfies `before`, the parser takes the lexemes and gives the result. -/
def Consumes (p : Parser α) (ls : List Lexeme) (before : List Lexeme → Prop) (a : α) : Prop :=
  ∀ read tail, before tail → p (bare read (ls ++ tail)) = (a, bare (read ++ ls) tail)

/-- Whatever comes. -/
def Anything : List Lexeme → Prop := fun _ => True

/-! ## Putting parsers together -/

theorem Consumes.bind {next : α → Parser β} (h : Consumes p ls before a)
    (hnext : Consumes (next a) ls' before' b) (hbefore : ∀ tail, before' tail → before (ls' ++ tail)) :
    Consumes (p >>= next) (ls ++ ls') before' b := by
  intro read tail htail
  show next (p _).1 (p _).2 = _
  rw [List.append_assoc, h read _ (hbefore tail htail), hnext _ _ htail, List.append_assoc]

/-- The first parser does not look ahead. -/
theorem Consumes.then {next : α → Parser β} (h : Consumes p ls Anything a)
    (hnext : Consumes (next a) ls' before b) : Consumes (p >>= next) (ls ++ ls') before b :=
  h.bind hnext fun _ _ => trivial

/-- The second parser looks ahead and takes nothing. -/
theorem Consumes.ahead {next : α → Parser β} (h : Consumes p ls before a)
    (hnext : Consumes (next a) [] before' b) (hbefore : ∀ tail, before' tail → before tail) :
    Consumes (p >>= next) ls before' b := by
  have hboth := h.bind hnext hbefore
  rwa [List.append_nil] at hboth

/-- The second parser does nothing with the stream. -/
theorem Consumes.finish {next : α → Parser β} (h : Consumes p ls before a)
    (hnext : Consumes (next a) [] before b) : Consumes (p >>= next) ls before b :=
  h.ahead hnext fun _ htail => htail

theorem Consumes.mono (h : Consumes p ls before a) (hbefore : ∀ tail, before' tail → before tail) :
    Consumes p ls before' a := fun read tail htail => h read tail (hbefore tail htail)

theorem consumes_pure (a : α) : Consumes (pure a) [] before a := by
  intro read tail _
  rw [List.append_nil]
  rfl

/-! ## Steps -/

/-- There are no places. -/
theorem Consumes.placed {next : Span → Parser β} (h : Consumes (next Span.none) ls before b) :
    Consumes (currentSpan >>= next) ls before b := by
  intro read tail htail
  show next (bare read _).current.span (bare read _) = _
  rw [TokenStream.span_current_bare]
  exact h read tail htail

theorem Consumes.spanned {next : Span → Parser β} (h : Consumes (next Span.none) ls before b) :
    Consumes (spanFrom Span.none >>= next) ls before b := by
  intro read tail htail
  show next (Span.none.merge (bare read _).previousSpan) (bare read _) = _
  rw [TokenStream.previousSpan_bare, Span.merge_self]
  exact h read tail htail

/-- What has been read is made into a tree. -/
theorem consumes_node (shape : Shape Tree) :
    Consumes (spanFrom Span.none >>= fun span => pure (Tree.node span shape)) [] before
      (nowhere shape) := Consumes.spanned (consumes_pure _)

theorem consumes_advance (l : Lexeme) : Consumes advance [l] before () := by
  intro read tail _
  show ((), (bare read (l :: tail)).advance) = _
  rw [TokenStream.advance_bare]

/-- What comes next decides. -/
theorem Consumes.peek {next : Lexeme → Parser β} {l : Lexeme}
    (h : Consumes (next l) (l :: ls) before b) : Consumes (Parser.peek >>= next) (l :: ls) before b := by
  intro read tail htail
  show next (bare read _).current.lexeme (bare read _) = _
  rw [TokenStream.lexeme_current_bare]
  exact h read tail htail

theorem consumes_eat (l : Lexeme) : Consumes (eat l) [l] before true := by
  refine Consumes.peek ?_
  rw [if_pos rfl]
  exact (consumes_advance l).finish (consumes_pure _)

/-- Something else comes. -/
theorem consumes_eat_of_ne (l : Lexeme) :
    Consumes (eat l) [] (fun tail => tail.headD .eof ≠ l) false := by
  intro read tail htail
  show (if (bare read tail).current.lexeme = l then _ else _ : Parser Bool) (bare read tail) = _
  rw [TokenStream.lexeme_current_bare, if_neg htail, List.append_nil]
  rfl

theorem consumes_expect (l : Lexeme) : Consumes (expect l) [l] before Span.none := by
  refine Consumes.placed (Consumes.peek ?_)
  rw [if_pos rfl]
  exact (consumes_advance l).finish (consumes_pure _)

theorem consumes_expectIdent (name : String) : Consumes expectIdent [.ident name] before name :=
  Consumes.peek ((consumes_advance _).finish (consumes_pure _))

/-! ## Lists -/

/-- One round of a loop that goes on. -/
theorem iterate_round {step : β → Parser (β × Bool)} {acc next : β} {read : List Lexeme}
    {tail : List Lexeme} (h : step acc (bare read (ls ++ tail)) = ((next, true), bare (read ++ ls) tail))
    (hls : ls ≠ []) :
    iterate step acc (bare read (ls ++ tail)) = iterate step next (bare (read ++ ls) tail) := by
  have hlength := List.length_pos_iff.2 hls
  rw [iterate_go (by rw [h]) (by rw [h]; simp; omega), h]

/-- The last round of a loop. -/
theorem iterate_last {step : β → Parser (β × Bool)} {acc next : β} {s s' : TokenStream}
    (h : step acc s = ((next, false), s')) : iterate step acc s = (next, s') := by
  rw [iterate_stop (by rw [h]), h]

/-- Each of the lists is taken, as long as a comma or a closing parenthesis follows. -/
def Elements (element : Parser α) : List (List Lexeme) → List α → Prop :=
  List.Forall₂ fun ls a => Consumes element ls
    (fun tail => tail.headD .eof = .comma ∨ tail.headD .eof = .rightParen) a

theorem consumes_commaSeparated {element : Parser α} {lists : List (List Lexeme)} {as : List α}
    (h : Elements element lists as) (hne : lists ≠ []) :
    Consumes (commaSeparated element) ([Lexeme.comma].intercalate lists)
      (fun tail => tail.headD .eof = .rightParen) as := by
  intro read tail htail
  have hloop : ∀ (sofar : Array α) (read : List Lexeme), ∃ all : Array α,
      all.toList = sofar.toList ++ as ∧
        iterate (fun (sofar : Array α) => do
          let next ← element
          return (sofar.push next, ← eat .comma)) sofar
            (bare read ([Lexeme.comma].intercalate lists ++ tail)) =
          (all, bare (read ++ [Lexeme.comma].intercalate lists) tail) := by
    induction h with
    | nil => exact absurd rfl hne
    | @cons ls a lists as hfirst hrest ih =>
      intro sofar read
      cases hrest with
      | nil =>
        have hround : Consumes (element >>= fun next => eat .comma >>= fun go =>
            pure (sofar.push next, go)) ls (fun tail => tail.headD .eof = .rightParen)
            (sofar.push a, false) := by
          refine hfirst.ahead ((consumes_eat_of_ne .comma).ahead (consumes_pure _) ?_) ?_
          · intro tail htail
            rw [htail]
            decide
          · exact fun _ htail => .inr htail
        refine ⟨sofar.push a, by simp, ?_⟩
        rw [List.intercalate_singleton]
        exact iterate_last (hround read tail htail)
      | @cons ls' a' lists as hnext hrest =>
        have hround : Consumes (element >>= fun next => eat .comma >>= fun go =>
            pure (sofar.push next, go)) (ls ++ [.comma]) Anything (sofar.push a, true) :=
          hfirst.bind ((consumes_eat .comma).finish (consumes_pure _)) fun _ _ => .inl rfl
        obtain ⟨all, hall, hloop⟩ := ih (by simp) (sofar.push a) (read ++ (ls ++ [.comma]))
        refine ⟨all, by simpa using hall, ?_⟩
        have hsplit : [Lexeme.comma].intercalate (ls :: ls' :: lists) =
            (ls ++ [.comma]) ++ [Lexeme.comma].intercalate (ls' :: lists) := by
          rw [List.intercalate_cons_cons]
        rw [hsplit, List.append_assoc, iterate_round (hround read _ trivial) (by simp), hloop,
          List.append_assoc]
  obtain ⟨all, hall, hloop⟩ := hloop #[] read
  show (_, _) = _
  rw [hloop]
  exact congrArg (·, _) hall

theorem consumes_parenthesised {element : Parser α} {lists : List (List Lexeme)} {as : List α}
    (h : Elements element lists as)
    (hfirst : ∀ ls ∈ lists.head?, ∃ l rest, ls = l :: rest ∧ l ≠ .rightParen) :
    Consumes (parenthesised element) (parenthesise lists) Anything (Span.none, as) := by
  refine (consumes_expect .leftParen).then ?_
  have hclose : ∀ as : List α, Consumes (expect .rightParen >>= fun _ => pure (Span.none, as))
      [.rightParen] Anything (Span.none, as) := fun as =>
    (consumes_expect .rightParen).finish (consumes_pure _)
  cases h with
  | nil =>
    refine Consumes.peek ?_
    rw [if_pos rfl]
    have hnone : Consumes (pure []) [] Anything ([] : List α) := consumes_pure []
    exact hnone.then (hclose [])
  | @cons ls a lists as hhead hrest =>
    obtain ⟨l, rest, rfl, hl⟩ := hfirst ls rfl
    have hall : Consumes (commaSeparated element) ([Lexeme.comma].intercalate ((l :: rest) :: lists))
        (fun tail => tail.headD .eof = .rightParen) (a :: as) :=
      consumes_commaSeparated (.cons hhead hrest) (by simp)
    have hcons : ∃ more, [Lexeme.comma].intercalate ((l :: rest) :: lists) = l :: more := by
      cases lists with
      | nil => exact ⟨rest, List.intercalate_singleton⟩
      | cons _ _ => exact ⟨_, by rw [List.intercalate_cons_cons]; rfl⟩
    obtain ⟨more, hmore⟩ := hcons
    have hread : Consumes (commaSeparated element >>= fun elements =>
        expect .rightParen >>= fun _ => pure (Span.none, elements))
        ([Lexeme.comma].intercalate ((l :: rest) :: lists) ++ [.rightParen]) Anything
        (Span.none, a :: as) := hall.bind (hclose (a :: as)) fun _ _ => rfl
    show Consumes _ ([Lexeme.comma].intercalate ((l :: rest) :: lists) ++ [.rightParen]) _ _
    rw [hmore] at hread ⊢
    refine Consumes.peek ?_
    rw [if_neg hl]
    exact hread

/-! ## Expressions -/

/-- What comes behind an expression of operators of at least the power `least`: no operator of that
power, and no list of arguments. -/
def Stops (least : Nat) (tail : List Lexeme) : Prop :=
  tail.headD .eof ≠ .leftParen ∧
    ∀ op, infixOf? (tail.headD .eof) = some op → op.power.1 < least

theorem Stops.mono {least least' : Nat} {tail : List Lexeme} (h : Stops least tail)
    (hle : least ≤ least') : Stops least' tail :=
  ⟨h.1, fun op hop => Nat.lt_of_lt_of_le (h.2 op hop) hle⟩

theorem stops_of_head {least : Nat} {tail : List Lexeme} {l : Lexeme} (h : tail.headD .eof = l)
    (hl : l ≠ .leftParen) (hop : infixOf? l = none) : Stops least tail := by
  refine ⟨by rwa [h], fun op hop' => ?_⟩
  rw [h, hop] at hop'
  cases hop'

/-- No operator is stronger than a minus in front. -/
theorem stops_negatePower {tail : List Lexeme} (h : tail.headD .eof ≠ .leftParen) :
    Stops negatePower tail := ⟨h, fun op _ => power_lt_negatePower op⟩

theorem Stops.binds {e : Expression} {least : Nat} {tail : List Lexeme} (h : Stops least tail)
    (hfits : e.Fits least) : Stops e.binds tail := by
  cases e with
  | infixOp op _ _ =>
    refine h.mono ?_
    rw [Expression.binds, power_snd]
    exact Nat.le_succ_of_le hfits
  | _ => exact stops_negatePower h.1

/-- An operand and the operators behind it. -/
def operators (room least : Nat) : Parser (Tree × Bool) :=
  operand (expression room) >>= fun first => iterate (infixStep (expression room) least) (first, false)

/-- Before what satisfies `before`, the loop over operators, started in front of the lexemes, comes to go
on behind them with what they give as the left operand. -/
def Chains (ls : List Lexeme) (chain : Tree × Bool) (room least : Nat) (before : List Lexeme → Prop) :
    Prop :=
  ∀ read tail, before tail → operators room least (bare read (ls ++ tail)) =
    iterate (infixStep (expression room) least) chain (bare (read ++ ls) tail)

variable {room least : Nat} {tree : Tree} {compared : Bool} {e : Expression}

theorem Chains.of_operand (h : Consumes (operand (expression room)) ls before tree) :
    Chains ls (tree, false) room least before := by
  intro read tail htail
  show iterate _ ((operand (expression room) _).1, false) (operand (expression room) _).2 = _
  rw [h read tail htail]

/-- If no operator goes on behind it, an expression is read to its end. -/
theorem Chains.expression (h : Chains ls (tree, compared) room least before)
    (hbefore : ∀ tail, before' tail → before tail)
    (hstops : ∀ tail, before' tail → ∀ op, infixOf? (tail.headD .eof) = some op → op.power.1 < least) :
    Consumes (expression (room + 1) least) ls before' tree := by
  intro read tail htail
  have hstop : infixStep (Parser.expression room) least (tree, compared) (bare (read ++ ls) tail) =
      (((tree, compared), false), bare (read ++ ls) tail) := by
    unfold infixStep
    dsimp only
    rw [peek_bind_apply, TokenStream.lexeme_current_bare]
    cases hop : infixOf? (tail.headD .eof) with
    | none => rfl
    | some op =>
      dsimp only
      rw [if_pos (hstops tail htail op hop)]
      rfl
  show ((operators room least _).1.1, (operators room least _).2) = _
  rw [h read tail (hbefore tail htail), iterate_last hstop]

/-! ### Parts of expressions -/

/-- What does not start with a minus is a primary. -/
theorem consumes_operand {inner : Nat → Parser Tree} {l : Lexeme} (hl : l ≠ .minus)
    (h : Consumes (primary (inner 0)) (l :: ls) before tree) :
    Consumes (operand inner) (l :: ls) before tree := by
  refine Consumes.peek ?_
  rwa [if_neg hl]

/-- Parentheses around an expression leave no node. -/
theorem consumes_enclosed {inner : Nat → Parser Tree} (h : Consumes (inner 0) ls before' tree)
    (hclose : ∀ tail, before' (.rightParen :: tail)) :
    Consumes (operand inner) (.leftParen :: (ls ++ [.rightParen])) before tree := by
  refine consumes_operand (by simp) (Consumes.placed (Consumes.peek ?_))
  refine (consumes_advance .leftParen).then (h.bind ?_ fun tail _ => ?_)
  · exact (consumes_expect .rightParen).finish (consumes_pure tree)
  · exact hclose tail

theorem stops_opLexeme {op : InfixOp} {tail : List Lexeme} (h : op.power.1 < least) :
    Stops least (opLexeme op :: tail) := by
  refine ⟨by cases op <;> simp [opLexeme], fun op' hop' => ?_⟩
  rw [List.headD_cons, infixOf_opLexeme] at hop'
  cases hop'
  exact h

/-- An operator behind what has been read takes it as its left operand. -/
theorem Chains.infixOp {op : InfixOp} {left right : Tree}
    (hleft : Chains ls (left, compared) room least before)
    (hbefore : ∀ tail, before (opLexeme op :: tail)) (hleast : least ≤ op.power.1)
    (hcompared : (op.isComparison && compared) = false)
    (hright : Consumes (Parser.expression room op.power.2) ls' before' right)
    (hspans : left.span = Span.none ∧ right.span = Span.none) :
    Chains (ls ++ opLexeme op :: ls') (nowhere (.infixOp op left right), op.isComparison) room least
      before' := by
  intro read tail htail
  have hround : infixStep (Parser.expression room) least (left, compared)
      (bare (read ++ ls) (opLexeme op :: ls' ++ tail)) =
      (((nowhere (.infixOp op left right), op.isComparison), true),
        bare (read ++ ls ++ opLexeme op :: ls') tail) := by
    unfold infixStep
    dsimp only
    rw [peek_bind_apply, TokenStream.lexeme_current_bare, List.cons_append, List.headD_cons,
      infixOf_opLexeme]
    dsimp only
    rw [if_neg (Nat.not_lt.2 hleast), hcompared]
    have hgo : Consumes (advance >>= fun _ => Parser.expression room op.power.2 >>= fun right =>
        pure ((Tree.node (left.span.merge right.span) (.infixOp op left right), op.isComparison), true))
        (opLexeme op :: ls') before'
        ((nowhere (.infixOp op left right), op.isComparison), true) := by
      refine (consumes_advance _).then (hright.finish ?_)
      rw [hspans.1, hspans.2, Span.merge_self]
      exact consumes_pure _
    exact hgo _ _ htail
  have hahead : before (opLexeme op :: ls' ++ tail) := hbefore _
  rw [List.append_assoc, hleft read _ hahead, iterate_round hround (by simp), List.append_assoc]

/-- Operators are read on behind the expression, if there is room for it. -/
def Chained (e : Expression) : Prop :=
  ∀ room least, e.nesting ≤ room + 1 → e.Fits least →
    Chains e.lexemes (e.tree, e.compares) room least (Stops e.binds)

theorem Chained.expression (h : Chained e) (hroom : e.nesting ≤ room) (hfits : e.Fits least) :
    Consumes (Parser.expression room least) e.lexemes (Stops least) e.tree := by
  cases room with
  | zero => exact absurd hroom (Nat.not_le.2 e.nesting_pos)
  | succ room =>
    exact (h room least hroom hfits).expression (fun _ htail => htail.binds hfits)
      fun _ htail => htail.2

/-- With parentheses around it, if it has any. -/
theorem Chained.enclosed (h : Chained e) {flag : Bool} (hroom : deeper flag e.nesting ≤ room + 1)
    (hfits : flag = false → e.Fits least) :
    Chains (enclose flag e.lexemes) (e.tree, !flag && e.compares) room least
      (Stops (if flag then negatePower else e.binds)) := by
  cases flag with
  | false => exact h room least hroom (hfits rfl)
  | true =>
    have hfits : e.Fits 0 := by cases e <;> simp [Expression.Fits]
    refine Chains.of_operand (consumes_enclosed (h.expression (Nat.le_of_succ_le_succ hroom) hfits) ?_)
    exact fun _ => stops_of_head rfl (by simp) rfl

theorem Chained.enclosed_expression (h : Chained e) {flag : Bool}
    (hroom : deeper flag e.nesting ≤ room) (hfits : flag = false → e.Fits least) :
    Consumes (Parser.expression room least) (enclose flag e.lexemes) (Stops least) e.tree := by
  cases room with
  | zero =>
    have hpos : 0 < deeper flag e.nesting := by
      have hnesting := e.nesting_pos
      unfold deeper
      split <;> omega
    exact absurd hroom (Nat.not_le.2 hpos)
  | succ room =>
    refine (h.enclosed hroom hfits).expression (fun tail htail => ?_) fun _ htail => htail.2
    cases flag with
    | false => exact htail.binds (hfits rfl)
    | true => exact stops_negatePower htail.1

theorem consumes_callOf {inner : Parser Tree} {lists : List (List Lexeme)} {ts : List Tree}
    (name : String) (h : Elements inner lists ts)
    (hfirst : ∀ ls ∈ lists.head?, ∃ l rest, ls = l :: rest ∧ l ≠ .rightParen) :
    Consumes (callOf inner name Span.none) (parenthesise lists) before
      (nowhere (.call name (nowhere (.list ts)))) := by
  exact (consumes_parenthesised h hfirst).ahead (Consumes.spanned (consumes_node _)) fun _ _ => trivial

/-- A name without arguments behind it is a variable. -/
theorem consumes_variable {inner : Parser Tree} (name : String) :
    Consumes (primary inner) [.ident name] (fun tail => tail.headD .eof ≠ .leftParen)
      (nowhere (.ident name)) := by
  refine Consumes.placed (Consumes.peek ((consumes_advance _).finish ?_))
  intro read tail htail
  show (if (bare read tail).current.lexeme = .leftParen then _ else _ : Parser Tree) (bare read tail) = _
  rw [TokenStream.lexeme_current_bare, if_neg htail, List.append_nil]
  rfl

mutual

/-- Expressions are read as they are spelt. -/
theorem chained : ∀ e : Expression, Chained e
  | .integer _, _, _, _, _ | .floating .., _, _, _, _ => by
    refine Chains.of_operand (consumes_operand (by simp) (Consumes.placed (Consumes.peek ?_)))
    exact (consumes_advance _).finish (consumes_pure _)
  | .variable name, _, _, _, _ => by
    refine Chains.of_operand (consumes_operand (by simp) ?_)
    exact (consumes_variable name.text).mono fun _ htail => htail.1
  | .call name arguments, room, _, hroom, _ => by
    refine Chains.of_operand (consumes_operand (by simp) (Consumes.placed (Consumes.peek ?_)))
    refine (consumes_advance _).then (Consumes.peek ?_)
    rw [if_pos rfl]
    refine consumes_callOf name.text (elements arguments room (Nat.le_of_succ_le_succ hroom)) ?_
    exact arguments.lexemes_start
  | .negate operand, room, _, hroom, _ => by
    refine Chains.of_operand (Consumes.peek ?_)
    rw [if_pos rfl]
    refine Consumes.placed ((consumes_advance _).then ?_)
    have hfits : operand.isInfix = false → operand.Fits negatePower := by
      cases operand <;> simp [Expression.isInfix, Expression.Fits]
    refine ((chained operand).enclosed_expression (Nat.le_of_succ_le_succ hroom) hfits).finish ?_
    rw [operand.span_tree, Span.merge_self]
    exact consumes_pure _
  | .infixOp op left right, room, least, hroom, hfits => by
    obtain ⟨hleft, hright⟩ := Nat.max_le.1 hroom
    obtain ⟨hbinds, hcompared, hfitsLeft⟩ := left_operand op left
    have hfirst := (chained left).enclosed hleft fun hflag => hfitsLeft hflag least hfits
    have hsecond := (chained right).enclosed_expression (Nat.le_of_succ_le_succ hright) fits_of_right
    exact hfirst.infixOp (fun _ => stops_opLexeme hbinds) hfits hcompared hsecond
      ⟨left.span_tree, right.span_tree⟩

/-- Arguments are read as they are spelt. -/
theorem elements : ∀ (arguments : Arguments) (room : Nat), arguments.nesting ≤ room →
    Elements (expression room 0) arguments.lexemes arguments.trees
  | .nil, _, _ => .nil
  | .cons first rest, room, hroom => by
    obtain ⟨hfirst, hrest⟩ := Nat.max_le.1 hroom
    refine .cons ?_ (elements rest room hrest)
    have hfits : first.Fits 0 := by cases first <;> simp [Expression.Fits]
    refine ((chained first).expression hfirst hfits).mono fun tail htail => ?_
    rcases htail with htail | htail
    · exact stops_of_head htail (by simp) rfl
    · exact stops_of_head htail (by simp) rfl

end

end Parser

end Abacus
