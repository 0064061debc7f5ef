import Abacus.Tree.Statement

/-!
# Complaints stay

A parser goes on after a complaint, and what it gives then stands for nothing. A text is accepted
only if nothing has been complained about up to its end. Since complaints are not taken back, nothing
has been complained about at any point before.

* `Parser.Keeps` — the parser takes back no complaints;
* `Parser.keeps_expression`, `Parser.keeps_body`, `Parser.keeps_topLevelStep` — what is read takes
  none back.
-/

namespace Abacus

@[simp] theorem TokenStream.complaints_advance (s : TokenStream) :
    s.advance.complaints = s.complaints := by
  unfold TokenStream.advance
  split <;> rfl

@[simp] theorem TokenStream.complaints_complain_ne (s : TokenStream) (d : Diagnostic) :
    (s.complain d).complaints ≠ #[] := by
  simp [TokenStream.complain]

namespace Parser

variable {α β : Type} {p q : Parser α}

/-- If nothing has been complained about after the parser, then nothing had been before it. -/
def Keeps (p : Parser α) : Prop := ∀ s, (p s).2.complaints = #[] → s.complaints = #[]

/-! ## Putting parsers together -/

theorem keeps_pure (a : α) : Keeps (pure a) := fun _ h => h

theorem Keeps.bind {next : α → Parser β} (hp : Keeps p) (hnext : ∀ a, Keeps (next a)) :
    Keeps (p >>= next) := fun s h => hp s (hnext (p s).1 (p s).2 h)

theorem Keeps.map (hp : Keeps p) (f : α → β) : Keeps (f <$> p) := hp

theorem Keeps.ite (c : Prop) [Decidable c] (hp : Keeps p) (hq : Keeps q) :
    Keeps (if c then p else q) := by
  split
  · exact hp
  · exact hq

theorem keeps_iterate {step : β → Parser (β × Bool)} (hstep : ∀ acc, Keeps (step acc)) (acc : β) :
    Keeps (iterate step acc) := by
  intro s
  fun_induction iterate step acc s with
  | case1 acc s result h ih => exact fun hquiet => hstep acc s (ih hquiet)
  | case2 acc s result h => exact hstep acc s

/-- If nothing has been complained about at the end of a loop, then nothing was in its first
round. -/
theorem quiet_round {step : β → Parser (β × Bool)} (hstep : ∀ acc, Keeps (step acc)) {acc : β}
    {s : TokenStream} (h : (iterate step acc s).2.complaints = #[]) :
    (step acc s).2.complaints = #[] := by
  rw [iterate] at h
  split at h
  · exact keeps_iterate hstep _ _ h
  · exact h

/-! ## Steps -/

theorem keeps_peek : Keeps peek := fun _ h => h

theorem keeps_peekSecond : Keeps peekSecond := fun _ h => h

theorem keeps_currentSpan : Keeps currentSpan := fun _ h => h

theorem keeps_spanFrom (start : Span) : Keeps (spanFrom start) := fun _ h => h

/-- What has been read is made into a tree. -/
theorem keeps_node (start : Span) (shape : Shape Tree) :
    Keeps (spanFrom start >>= fun span => pure (Tree.node span shape)) :=
  (keeps_spanFrom start).bind fun _ => keeps_pure _

theorem keeps_afterDedent : Keeps afterDedent := fun _ h => h

theorem keeps_advance : Keeps advance := fun s h => s.complaints_advance.symm.trans h

theorem keeps_complain (message : String) : Keeps (complain message) :=
  fun s h => absurd h (s.complaints_complain_ne _)

theorem keeps_complainWithHelp (message help : String) : Keeps (complainWithHelp message help) :=
  fun s h => absurd h (s.complaints_complain_ne _)

theorem keeps_eat (lexeme : Lexeme) : Keeps (eat lexeme) :=
  keeps_peek.bind fun _ => .ite _ (keeps_advance.bind fun _ => keeps_pure _) (keeps_pure _)

theorem keeps_expect (lexeme : Lexeme) : Keeps (expect lexeme) :=
  keeps_currentSpan.bind fun _ => keeps_peek.bind fun _ => .ite _
    (keeps_advance.bind fun _ => keeps_pure _) ((keeps_complain _).bind fun _ => keeps_pure _)

theorem keeps_expectIdent : Keeps expectIdent := by
  refine keeps_peek.bind fun found => ?_
  split
  · exact keeps_advance.bind fun _ => keeps_pure _
  · exact (keeps_complain _).bind fun _ => keeps_pure _

theorem keeps_skipNewlines : Keeps skipNewlines :=
  keeps_iterate (fun _ => (keeps_eat _).bind fun _ => keeps_pure _) ()

theorem keeps_skipLine : Keeps skipLine := by
  refine keeps_iterate (fun _ => keeps_peek.bind fun found => ?_) ()
  split
  · exact keeps_pure _
  · exact keeps_pure _
  · exact keeps_pure _
  · exact keeps_advance.bind fun _ => keeps_pure _

theorem keeps_commaSeparated (hp : Keeps p) : Keeps (commaSeparated p) :=
  (keeps_iterate (fun _ => hp.bind fun _ => (keeps_eat _).bind fun _ => keeps_pure _) #[]).bind
    fun _ => keeps_pure _

theorem keeps_parenthesised (hp : Keeps p) : Keeps (parenthesised p) := by
  refine (keeps_expect _).bind fun _ => keeps_peek.bind fun _ => ?_
  have hclose : ∀ (start : Span) (elements : List α),
      Keeps (expect .rightParen >>= fun _ => pure (start, elements)) :=
    fun _ _ => (keeps_expect _).bind fun _ => keeps_pure _
  exact .ite _ ((keeps_pure _).bind fun _ => hclose _ _)
    ((keeps_commaSeparated hp).bind fun _ => hclose _ _)

theorem keeps_complainTooDeep : Keeps complainTooDeep := keeps_complainWithHelp _ _

/-! ## Expressions -/

section

variable {inner : Parser Tree} {expression' : Nat → Parser Tree}

theorem keeps_callOf (hinner : Keeps inner) (name : String) (start : Span) :
    Keeps (callOf inner name start) :=
  (keeps_parenthesised hinner).bind fun _ => (keeps_spanFrom _).bind fun _ =>
    keeps_node _ _

/-- What cannot start an expression is stepped over. -/
theorem keeps_missing (found : Lexeme) (start : Span) : Keeps (do
    match found with
    | .newline | .eof | .dedent | .indent => pure ()
    | _ => advance
    return missing start) := by
  split
  · exact (keeps_pure _).bind fun _ => keeps_pure _
  · exact (keeps_pure _).bind fun _ => keeps_pure _
  · exact (keeps_pure _).bind fun _ => keeps_pure _
  · exact (keeps_pure _).bind fun _ => keeps_pure _
  · exact keeps_advance.bind fun _ => keeps_pure _

theorem keeps_unexpected (found : Lexeme) (start : Span) : Keeps (do
    complain ("expected expression, found " ++ found.description)
    match found with
    | .newline | .eof | .dedent | .indent => pure ()
    | _ => advance
    return missing start) := (keeps_complain _).bind fun _ => keeps_missing found start

theorem keeps_primary (hinner : Keeps inner) : Keeps (primary inner) := by
  refine keeps_currentSpan.bind fun start => keeps_peek.bind fun found => ?_
  cases found with
  | integer | floating => exact keeps_advance.bind fun _ => keeps_pure _
  | ident =>
    exact keeps_advance.bind fun _ => keeps_peek.bind fun _ =>
      .ite _ (keeps_callOf hinner _ _) (keeps_pure _)
  | leftParen =>
    exact keeps_advance.bind fun _ => hinner.bind fun _ => (keeps_expect _).bind fun _ =>
      keeps_pure _
  | _ => exact keeps_unexpected _ start

theorem keeps_operand (h : ∀ least, Keeps (expression' least)) : Keeps (operand expression') :=
  keeps_peek.bind fun _ => .ite _
    (keeps_currentSpan.bind fun _ => keeps_advance.bind fun _ => (h _).bind fun _ => keeps_pure _)
    (keeps_primary (h 0))

theorem keeps_infixStep (h : ∀ least, Keeps (expression' least)) (least : Nat)
    (acc : Tree × Bool) : Keeps (infixStep expression' least acc) := by
  refine keeps_peek.bind fun found => ?_
  split
  · exact keeps_pure _
  · next op _ =>
    have hgo : Keeps (do
        advance
        let right ← expression' op.power.2
        let tree := Tree.node (acc.1.span.merge right.span) (.infixOp op acc.1 right)
        return ((tree, op.isComparison), true)) :=
      keeps_advance.bind fun _ => (h _).bind fun _ => keeps_pure _
    exact .ite _ (keeps_pure _) (.ite _ ((keeps_complainWithHelp _ _).bind fun _ => hgo) hgo)

theorem keeps_expression (room least : Nat) : Keeps (expression room least) := by
  induction room generalizing least with
  | zero => exact keeps_complainTooDeep.bind fun _ => keeps_currentSpan.bind fun _ => keeps_pure _
  | succ room ih =>
    exact (keeps_operand ih).bind fun _ => (keeps_iterate (keeps_infixStep ih least) _).bind
      fun _ => keeps_pure _

end

/-! ## Statements -/

section

variable {expr body' item : Parser Tree}

theorem keeps_endStatement : Keeps endStatement := by
  refine (keeps_eat _).bind fun _ => .ite _ (keeps_pure _) ?_
  exact keeps_peek.bind fun _ => keeps_afterDedent.bind fun _ => .ite _ (keeps_pure _)
    ((keeps_complain _).bind fun _ => keeps_skipLine.bind fun _ => (keeps_eat _).bind fun _ =>
      keeps_pure _)

theorem keeps_fnDef (hbody : Keeps body') : Keeps (fnDef body') :=
  (keeps_expect _).bind fun _ => keeps_expectIdent.bind fun _ =>
    (keeps_parenthesised keeps_expectIdent).bind fun _ => hbody.bind fun _ =>
      keeps_node _ _

theorem keeps_findElse : Keeps findElse := by
  refine keeps_peek.bind fun found => ?_
  split
  · exact keeps_pure _
  · exact keeps_peekSecond.bind fun _ => .ite _ (keeps_advance.bind fun _ => keeps_pure _)
      (keeps_pure _)
  · exact keeps_pure _

theorem keeps_ifElse (hexpr : Keeps expr) (hbody : Keeps body') : Keeps (ifElse expr body') := by
  refine (keeps_expect _).bind fun start => hexpr.bind fun condition => hbody.bind fun thenBody =>
    keeps_findElse.bind fun _ => ?_
  exact .ite _ ((keeps_expect _).bind fun _ => (hbody.map some).bind fun _ => keeps_node _ _)
    ((keeps_pure _).bind fun _ => keeps_node _ _)

theorem keeps_forLoop (hexpr : Keeps expr) (hbody : Keeps body') : Keeps (forLoop expr body') :=
  (keeps_expect _).bind fun _ => keeps_expectIdent.bind fun _ => (keeps_expect _).bind fun _ =>
    hexpr.bind fun _ => hbody.bind fun _ => keeps_node _ _

theorem keeps_letVar (hexpr : Keeps expr) : Keeps (letVar expr) :=
  keeps_currentSpan.bind fun _ => keeps_advance.bind fun _ => keeps_expectIdent.bind fun _ =>
    (keeps_expect _).bind fun _ => hexpr.bind fun _ => keeps_node _ _

theorem keeps_giveBack (hexpr : Keeps expr) : Keeps (giveBack expr) :=
  keeps_currentSpan.bind fun _ => keeps_advance.bind fun _ => hexpr.bind fun _ =>
    keeps_node _ _

theorem keeps_setVar (hexpr : Keeps expr) (name : String) : Keeps (setVar expr name) :=
  keeps_currentSpan.bind fun _ => keeps_advance.bind fun _ => keeps_advance.bind fun _ =>
    hexpr.bind fun _ => keeps_node _ _

theorem keeps_statement (hexpr : Keeps expr) (hbody : Keeps body') :
    Keeps (statement expr body') := by
  refine keeps_peek.bind fun found => ?_
  split
  · exact keeps_letVar hexpr
  · exact keeps_giveBack hexpr
  · exact keeps_ifElse hexpr hbody
  · exact keeps_forLoop hexpr hbody
  · exact (keeps_complainWithHelp _ _).bind fun _ => keeps_fnDef hbody
  · exact keeps_peekSecond.bind fun _ => .ite _ (keeps_setVar hexpr _) hexpr
  · exact hexpr

theorem keeps_block (hitem : Keeps item) : Keeps (block item) := by
  refine (keeps_iterate (fun _ => ?_) #[]).bind fun _ => keeps_pure _
  exact keeps_skipNewlines.bind fun _ => (keeps_eat _).bind fun _ => .ite _ (keeps_pure _)
    (keeps_peek.bind fun _ => .ite _ (keeps_pure _)
      (hitem.bind fun _ => keeps_endStatement.bind fun _ => keeps_pure _))

theorem keeps_body (room : Nat) : Keeps (body room) := by
  induction room with
  | zero =>
    exact keeps_currentSpan.bind fun _ => (keeps_eat _).bind fun _ =>
      keeps_complainTooDeep.bind fun _ => keeps_pure _
  | succ room ih =>
    have hitem := keeps_statement (keeps_expression room 0) ih
    refine keeps_currentSpan.bind fun start => (keeps_eat _).bind fun _ => (keeps_eat _).bind
      fun _ => ?_
    exact .ite _
      ((keeps_expect _).bind fun _ => (keeps_block hitem).bind fun _ => keeps_node _ _)
      (hitem.bind fun _ => (keeps_pure _).bind fun _ => keeps_node _ _)

/-- The round of the top level after empty lines have been skipped. -/
def topLevelItem (sofar : Array Tree) : Parser (Array Tree × Bool) := do
  match ← peek with
  | .eof => return (sofar, false)
  | .indent | .dedent =>
    complain "unexpected indentation"
    advance
    return (sofar, true)
  | .fnWord =>
    let item ← fnDef (body maxNesting)
    endStatement
    return (sofar.push item, true)
  | _ =>
    let item ← statement (expression maxNesting 0) (body maxNesting)
    endStatement
    return (sofar.push item, true)

theorem keeps_topLevelItem (sofar : Array Tree) : Keeps (topLevelItem sofar) := by
  refine keeps_peek.bind fun found => ?_
  split
  · exact keeps_pure _
  · exact (keeps_complain _).bind fun _ => keeps_advance.bind fun _ => keeps_pure _
  · exact (keeps_complain _).bind fun _ => keeps_advance.bind fun _ => keeps_pure _
  · exact (keeps_fnDef (keeps_body _)).bind fun _ => keeps_endStatement.bind fun _ => keeps_pure _
  · exact (keeps_statement (keeps_expression _ _) (keeps_body _)).bind fun _ =>
      keeps_endStatement.bind fun _ => keeps_pure _

theorem keeps_topLevelStep (sofar : Array Tree) : Keeps (topLevelStep sofar) :=
  keeps_skipNewlines.bind fun _ => keeps_topLevelItem sofar

end

end Parser

end Abacus
