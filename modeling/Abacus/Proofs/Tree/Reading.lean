import Abacus.Proofs.Tree.Abreast

/-!
# What is read from two texts side by side

Expressions, statements and bodies that are read from two streams with the same lexemes are the same
trees at different places. Whatever follows the last line of the first stream, a whole text with the
same lexemes starts with the same items.

* `gives_expression`, `gives_statement`, `gives_body` — one lemma for each kind of tree;
* `iterate_topLevel_alike` — the items of a text, at the start of a longer one;
* `itemsOf_texts` — the items of several texts of definitions, one after the other.
-/

namespace Abacus.Parser

open TokenStream (Ahead Past After)
open Abacus.Tree (ExpressionAlike StatementAlike ItemAlike)

variable {more : List Lexeme} {depth room : Nat} {P : TokenStream → Prop}

/-! ## Expressions -/

section

variable {inner : Parser Tree} {expression' : Nat → Parser Tree}

theorem tracks_callOf (hkeeps : Keeps inner) (hinner : Gives more ExpressionAlike inner inner)
    (name : String) {start start' : Span} (hstart : start.IsPlace) (hstart' : start'.IsPlace) :
    Tracks more (Ahead depth room) (callOf inner name start) (callOf inner name start')
      fun t t' s => ExpressionAlike t t' ∧ Past depth room s := by
  refine (gives_parenthesised hkeeps hinner).bind (fun _ h => h)
    (fun _ => (keeps_spanFrom _).bind fun _ => keeps_node _ _) ?_
  rintro ⟨opening, elements⟩ ⟨opening', elements'⟩ ⟨hopening, hopening', helements⟩
  refine tracks_spanFrom hopening hopening' fun _ _ _ _ => ?_
  refine tracks_spanFrom hstart hstart' fun _ _ hspan hspan' => tracks_pure _ _ fun s h => ⟨?_, h⟩
  obtain ⟨hlength, hpairs⟩ := List.forall₂_iff_zip.1 helements
  exact .call hspan hspan' hlength hpairs

theorem blames_unexpected (found : Lexeme) (start : Span) : Blames (do
    complain ("expected expression, found " ++ found.description)
    match found with
    | .newline | .eof | .dedent | .indent => pure ()
    | _ => advance
    return missing start) := (blames_complain _).bind fun _ => keeps_missing found start

theorem gives_primary (hkeeps : Keeps inner) (hinner : Gives more ExpressionAlike inner inner) :
    Gives more ExpressionAlike (primary inner) (primary inner) := by
  intro depth room
  refine tracks_currentSpan fun start start' hstart hstart' => ?_
  refine tracks_peek_or (fun found _ => ?_) fun _ _ => (blames_unexpected .eof start).tracks
  cases found with
  | integer =>
    exact tracks_step rfl (fun _ h => h) (keeps_pure _)
      (tracks_pure _ _ fun s h => ⟨.integer hstart hstart', h⟩)
  | floating =>
    exact tracks_step rfl (fun _ h => h) (keeps_pure _)
      (tracks_pure _ _ fun s h => ⟨.floating hstart hstart', h⟩)
  | ident name =>
    refine tracks_step rfl (fun _ h => h)
      (keeps_peek.bind fun _ => .ite _ (keeps_callOf hkeeps _ _) (keeps_pure _))
      (tracks_peek (fun next => ?_) (by simp))
    by_cases hnext : next = .leftParen
    · simp only [if_pos hnext]
      exact (tracks_callOf hkeeps hinner name hstart hstart').mono (fun s h => h.1.ahead)
        fun _ _ _ h => h
    · simp only [if_neg hnext]
      exact tracks_pure _ _ fun s h => ⟨.ident hstart hstart', h.1⟩
  | leftParen =>
    refine tracks_step rfl (fun _ h => h)
      (hkeeps.bind fun _ => (keeps_expect _).bind fun _ => keeps_pure _) ?_
    refine hinner.bind (fun _ => Past.ahead) (fun _ => (keeps_expect _).bind fun _ => keeps_pure _)
      fun t t' ht => ?_
    exact (gives_expect rfl).bind (fun _ => Past.ahead) (fun _ => keeps_pure _)
      fun _ _ _ => tracks_pure _ _ fun s h => ⟨ht, h⟩
  | _ => exact (blames_unexpected _ start).tracks

theorem gives_operand (hkeeps : ∀ least, Keeps (expression' least))
    (h : ∀ least, Gives more ExpressionAlike (expression' least) (expression' least)) :
    Gives more ExpressionAlike (operand expression') (operand expression') := by
  intro depth room
  refine tracks_peek (fun found => ?_) (by simp)
  by_cases hfound : found = .minus
  · subst hfound
    simp only [if_true]
    refine tracks_currentSpan fun start start' hstart hstart' => ?_
    refine tracks_step rfl (fun _ h => h) ((hkeeps _).bind fun _ => keeps_pure _) ?_
    refine (h _).bind (fun _ => Past.ahead) (fun _ => keeps_pure _) fun t t' ht => ?_
    exact tracks_pure _ _ fun s h =>
      ⟨.negate (hstart.merge ht.isPlace.1) (hstart'.merge ht.isPlace.2) ht, h⟩
  · simp only [if_neg hfound]
    exact (gives_primary (hkeeps 0) (h 0) depth room).mono (fun s h => h.1) fun _ _ _ h => h

/-- Operators are no layout. -/
theorem isLayout_of_infixOf {l : Lexeme} {op : InfixOp} (h : infixOf? l = some op) :
    l.isLayout = false := by
  cases l <;> first | rfl | cases h

/-- The left operands of two operator chains: they are alike, and the last operator was a comparison
in both or in none. -/
def ChainAlike (chain chain' : Tree × Bool) : Prop :=
  ExpressionAlike chain.1 chain'.1 ∧ chain'.2 = chain.2

theorem tracks_infixStep (hkeeps : ∀ least, Keeps (expression' least))
    (h : ∀ least, Gives more ExpressionAlike (expression' least) (expression' least)) (least : Nat)
    (chain chain' : Tree × Bool) (n : Nat) :
    Tracks more (fun s => (ChainAlike chain chain' ∧ Past depth room s) ∧ s.rest.length ≤ n)
      (infixStep expression' least chain) (infixStep expression' least chain') fun r r' s =>
        r'.2 = r.2 ∧ if r.2 then (ChainAlike r.1 r'.1 ∧ Past depth room s) ∧ s.rest.length < n
          else ChainAlike r.1 r'.1 ∧ Past depth room s := by
  refine Tracks.of_fact (fun s h => h.1.1) fun hchain => ?_
  obtain ⟨left, compared⟩ := chain
  obtain ⟨left', compared'⟩ := chain'
  obtain ⟨hleft, rfl⟩ : ExpressionAlike left left' ∧ compared' = compared := hchain
  refine tracks_peek (fun found => ?_) rfl
  cases hop : infixOf? found with
  | none => exact tracks_pure _ _ fun s h => ⟨rfl, h.1.1⟩
  | some op =>
    dsimp only
    by_cases hpower : op.power.1 < least
    · simp only [if_pos hpower]
      exact tracks_pure _ _ fun s h => ⟨rfl, h.1.1⟩
    · simp only [if_neg hpower]
      have hrest : ∀ left, Keeps (expression' op.power.2 >>= fun right =>
          pure ((Tree.node (left.span.merge right.span) (.infixOp op left right),
            op.isComparison), true)) :=
        fun _ => (hkeeps _).bind fun _ => keeps_pure _
      by_cases hcompared : (op.isComparison && compared') = true
      · simp only [if_pos hcompared]
        exact ((blames_complainWithHelp _ _).bind fun _ => keeps_advance.bind fun _ =>
          hrest left).tracks
      · simp only [if_neg hcompared]
        have hahead : ∀ s : TokenStream, Past depth room s → s.rest.length ≤ n →
            Ahead depth (min room n) s :=
          fun s h hn => ⟨h.1, Nat.le_min.2 ⟨Nat.le_of_lt h.2.1, hn⟩⟩
        refine tracks_step (isLayout_of_infixOf hop)
          (fun s h => ⟨hahead s h.1.1.2 h.1.2, h.2⟩) (hrest left) ?_
        refine (h _).bind (fun _ => Past.ahead) (fun _ => keeps_pure _) fun right right' hright => ?_
        refine tracks_pure _ _ fun s h => ⟨rfl, ⟨⟨?_, rfl⟩, h.mono (Nat.min_le_left ..)⟩,
          (h.mono (Nat.min_le_right ..)).2.1⟩
        exact .infixOp (hleft.isPlace.1.merge hright.isPlace.1)
          (hleft.isPlace.2.merge hright.isPlace.2) hleft hright

theorem gives_expression (room least : Nat) :
    Gives more ExpressionAlike (expression room least) (expression room least) := by
  induction room generalizing least with
  | zero =>
    intro depth n
    exact ((blames_complainWithHelp _ _).bind fun _ => keeps_currentSpan.bind fun _ =>
      keeps_pure _).tracks
  | succ room ih =>
    intro depth n
    have hkeeps := keeps_expression room
    refine (gives_operand hkeeps ih).bind (fun _ h => h)
      (fun _ => (keeps_iterate (keeps_infixStep hkeeps least) _).bind fun _ => keeps_pure _)
      fun t t' ht => ?_
    refine Tracks.bind (Q := fun chain chain' s => ChainAlike chain chain' ∧ Past depth n s) ?_
      (fun _ => keeps_pure _) fun _ _ => tracks_pure _ _ fun s h => ⟨h.1.1, h.2⟩
    exact (tracks_iterate _ (keeps_infixStep hkeeps least) (tracks_infixStep hkeeps ih least)
      (t, false) (t', false)).mono (fun s h => ⟨⟨ht, rfl⟩, h⟩) fun _ _ _ h => h

end

/-! ## Statements -/

section

variable {expr body' item : Parser Tree}

/-- Two bodies that are the same at different places. -/
def BodyAlike (t t' : Tree) : Prop :=
  ∃ span span' items items', t = .node span (.list items) ∧ t' = .node span' (.list items') ∧
    List.Forall₂ StatementAlike items items'

/-- The end of a statement is where the line or the block ends, also where the first stream does. -/
theorem tracks_endStatement : Tracks more (Past depth room) endStatement endStatement
    fun _ _ s => s.Level depth ∧ s.rest.length < room := by
  have hblames : ∀ message, Blames (complain message >>= fun _ => skipLine >>= fun _ =>
      eat .newline >>= fun _ => pure ()) :=
    fun _ => (blames_complain _).bind fun _ => keeps_skipLine.bind fun _ => (keeps_eat _).bind
      fun _ => keeps_pure _
  have hkeeps : ∀ found : Lexeme, Keeps (afterDedent >>= fun after =>
      if (found = .eof || found = .dedent || after) = true then pure ()
      else complain ("expected end of line, found " ++ found.description) >>= fun _ =>
        skipLine >>= fun _ => eat .newline >>= fun _ => pure ()) :=
    fun _ => keeps_afterDedent.bind fun _ => .ite _ (keeps_pure _)
      ((keeps_complain _).bind fun _ => keeps_skipLine.bind fun _ => (keeps_eat _).bind
        fun _ => keeps_pure _)
  refine (tracks_eat (by decide) (by decide)).bind
    (fun _ => .ite _ (keeps_pure _) (keeps_peek.bind hkeeps)) fun found found' => ?_
  refine Tracks.of_fact (fun s h => h.1) ?_
  rintro rfl
  cases found' with
  | true => exact tracks_pure _ _ fun s h => (h.2.mono fun s h => h.ahead).newline
  | false =>
    refine tracks_peek_or (fun l _ => ?_) fun l hl => ?_
    · refine tracks_afterDedent (fun s h => ?_) fun after => ?_
      · obtain ⟨t, ht, -⟩ := h.1.2.1.2.2
        exact ⟨t, ht⟩
      · by_cases hend : (l = .eof || l = .dedent || after) = true
        · simp only [if_pos hend]
          exact tracks_pure _ _ fun s h => ⟨h.1.2.1.1, h.1.2.1.2.1⟩
        · simp only [if_neg hend]
          exact (hblames _).tracks
    · refine tracks_afterDedent_of_nil (fun s h => ⟨h.2, h.1.2.1.2.2⟩) fun after => ?_
      simp only [Bool.or_true, if_true]
      exact tracks_pure _ _ fun s h => ⟨h.1.2.1.1, h.1.2.1.2.1⟩

theorem tracks_findElse : Tracks more (Past depth room) findElse findElse fun found found' s =>
    found' = found ∧ if found then Ahead depth room s else Past depth room s := by
  refine tracks_peek (fun l => ?_) rfl
  split
  · exact tracks_pure _ _ fun s h => ⟨rfl, h.1.ahead⟩
  · refine tracks_peekSecond (fun s h => TokenStream.rest_ne_nil (by simp [h.2])) (fun l => ?_)
      (by simp)
    by_cases hl : l = .elseWord
    · simp only [if_pos hl]
      refine Tracks.bind ((tracks_advance (P := Past depth room) (l := .newline) (by decide)).mono
        (fun s h => h.1) fun _ _ _ h => h) (fun _ => keeps_pure _) fun _ _ => tracks_pure _ _
          fun s h => ?_
      obtain ⟨hlevel, hroom⟩ := (h.mono fun s h => h.ahead).newline
      exact ⟨rfl, hlevel, Nat.le_of_lt hroom⟩
    · simp only [if_neg hl]
      exact tracks_pure _ _ fun s h => ⟨rfl, h.1.1⟩
  · exact tracks_pure _ _ fun s h => ⟨rfl, h.1⟩

theorem gives_ifElse (hkeeps : Keeps expr) (hexpr : Gives more ExpressionAlike expr expr)
    (hkeeps' : Keeps body') (hbody : Gives more BodyAlike body' body') :
    Gives more StatementAlike (ifElse expr body') (ifElse expr body') := by
  intro depth room
  have helse : ∀ (start : Span) (condition thenBody : Tree) (found : Bool),
      Keeps (if found = true then expect .elseWord >>= fun _ => some <$> body' >>= fun elseBody =>
          spanFrom start >>= fun span =>
            pure (Tree.node span (.ifElse condition thenBody elseBody))
        else pure none >>= fun elseBody => spanFrom start >>= fun span =>
          pure (Tree.node span (.ifElse condition thenBody elseBody))) :=
    fun _ _ _ _ => .ite _
      ((keeps_expect _).bind fun _ => (hkeeps'.map some).bind fun _ => keeps_node _ _)
      ((keeps_pure _).bind fun _ => keeps_node _ _)
  refine (gives_expect rfl).bind (fun _ h => h)
    (fun _ => hkeeps.bind fun _ => hkeeps'.bind fun _ => keeps_findElse.bind (helse _ _ _))
    fun start start' hstart => ?_
  refine hexpr.bind (fun _ => Past.ahead)
    (fun _ => hkeeps'.bind fun _ => keeps_findElse.bind (helse _ _ _))
    fun condition condition' hcondition => ?_
  refine hbody.bind (fun _ => Past.ahead) (fun _ => keeps_findElse.bind (helse _ _ _))
    fun thenBody thenBody' hthen => ?_
  -- However the second body is read, what has been read is alike.
  have hdone : ∀ elseBody elseBody', Option.Rel BodyAlike elseBody elseBody' →
      Tracks more (Past depth room)
        (spanFrom start >>= fun span =>
          pure (Tree.node span (.ifElse condition thenBody elseBody)))
        (spanFrom start' >>= fun span =>
          pure (Tree.node span (.ifElse condition' thenBody' elseBody')))
        fun t t' s => StatementAlike t t' ∧ Past depth room s := by
    intro elseBody elseBody' helse
    refine tracks_spanFrom hstart.1 hstart.2 fun _ _ hspan hspan' => tracks_pure _ _ fun s h =>
      ⟨?_, h⟩
    obtain ⟨_, _, _, _, rfl, rfl, hthen⟩ := hthen
    obtain ⟨hlength, hthen⟩ := List.forall₂_iff_zip.1 hthen
    cases helse with
    | none => exact .ifThen hspan hspan' hcondition hlength hthen
    | some helse =>
      obtain ⟨_, _, _, _, rfl, rfl, helse⟩ := helse
      obtain ⟨hlength', helse⟩ := List.forall₂_iff_zip.1 helse
      exact .ifElse hspan hspan' hcondition hlength hthen hlength' helse
  refine Tracks.bind tracks_findElse (helse _ _ _) fun found found' => ?_
  refine Tracks.of_fact (fun s h => h.1) ?_
  rintro rfl
  cases found' with
  | true =>
    refine (gives_expect rfl).bind (fun _ h => h.2)
      (fun _ => (hkeeps'.map some).bind fun _ => keeps_node _ _) fun _ _ _ => ?_
    have hsome : Gives more (Option.Rel BodyAlike) (some <$> body') (some <$> body') :=
      hbody.map fun _ _ => .some
    exact hsome.bind (fun _ => Past.ahead) (fun _ => keeps_node _ _) hdone
  | false =>
    simp only [Bool.false_eq_true, if_false, pure_bind]
    exact (hdone none none .none).mono (fun s h => h.2) fun _ _ _ h => h

theorem gives_fnDef (hkeeps : Keeps body') (hbody : Gives more BodyAlike body' body') :
    Gives more ItemAlike (fnDef body') (fnDef body') := by
  intro depth room
  have hend : ∀ (start : Span) (name : String) (parameters : List String),
      Keeps (body' >>= fun inner => spanFrom start >>= fun span =>
        pure (Tree.node span (.fnDef name parameters inner))) :=
    fun start _ _ => hkeeps.bind fun _ => keeps_node start _
  refine (gives_expect rfl).bind (fun _ h => h) (fun _ => keeps_expectIdent.bind fun _ =>
    (keeps_parenthesised keeps_expectIdent).bind fun _ => hend _ _ _) fun start start' hstart => ?_
  refine gives_expectIdent.bind (fun _ => Past.ahead)
    (fun _ => (keeps_parenthesised keeps_expectIdent).bind fun _ => hend _ _ _) ?_
  rintro name _ rfl
  refine (gives_parenthesised keeps_expectIdent gives_expectIdent).bind (fun _ => Past.ahead)
    (fun _ => hend _ _ _) ?_
  rintro ⟨_, names⟩ ⟨_, names'⟩ ⟨-, -, hnames⟩
  rw [List.forall₂_eq_eq_eq] at hnames
  subst hnames
  refine hbody.bind (fun _ => Past.ahead) (fun _ => keeps_node _ _) ?_
  rintro _ _ ⟨bodySpan, bodySpan', items, items', rfl, rfl, hitems⟩
  exact tracks_spanFrom hstart.1 hstart.2 fun _ _ hspan hspan' => tracks_pure _ _ fun s h =>
    ⟨.fnDef hspan hspan' hitems, h⟩

theorem gives_forLoop (hkeeps : Keeps expr) (hexpr : Gives more ExpressionAlike expr expr)
    (hkeeps' : Keeps body') (hbody : Gives more BodyAlike body' body') :
    Gives more StatementAlike (forLoop expr body') (forLoop expr body') := by
  intro depth room
  have hend : ∀ (start : Span) (index : String) (bound : Tree),
      Keeps (body' >>= fun inner => spanFrom start >>= fun span =>
        pure (Tree.node span (.forLoop index bound inner))) :=
    fun _ _ _ => hkeeps'.bind fun _ => keeps_node _ _
  refine (gives_expect rfl).bind (fun _ h => h) (fun _ => keeps_expectIdent.bind fun _ =>
    (keeps_expect _).bind fun _ => hkeeps.bind (hend _ _)) fun start start' hstart => ?_
  refine gives_expectIdent.bind (fun _ => Past.ahead)
    (fun _ => (keeps_expect _).bind fun _ => hkeeps.bind (hend _ _)) ?_
  rintro index _ rfl
  refine (gives_expect rfl).bind (fun _ => Past.ahead) (fun _ => hkeeps.bind (hend _ _))
    fun _ _ _ => ?_
  refine hexpr.bind (fun _ => Past.ahead) (hend _ _) fun bound bound' hbound => ?_
  refine hbody.bind (fun _ => Past.ahead) (fun _ => keeps_node _ _) ?_
  rintro _ _ ⟨bodySpan, bodySpan', items, items', rfl, rfl, hitems⟩
  obtain ⟨hlength, hitems⟩ := List.forall₂_iff_zip.1 hitems
  exact tracks_spanFrom hstart.1 hstart.2 fun _ _ hspan hspan' => tracks_pure _ _ fun s h =>
    ⟨.forLoop hspan hspan' hbound hlength hitems, h⟩

/-- A value after the words that say what becomes of it. -/
theorem tracks_value {start start' : Span} {make : Tree → Shape Tree} (hstart : start.IsPlace)
    (hstart' : start'.IsPlace) (hexpr : Gives more ExpressionAlike expr expr)
    (hmake : ∀ {span span' t t'}, span.IsPlace → span'.IsPlace → ExpressionAlike t t' →
      StatementAlike (.node span (make t)) (.node span' (make t'))) :
    Tracks more (Past depth room)
      (expr >>= fun value => spanFrom start >>= fun span => pure (Tree.node span (make value)))
      (expr >>= fun value => spanFrom start' >>= fun span => pure (Tree.node span (make value)))
      fun t t' s => StatementAlike t t' ∧ Past depth room s :=
  hexpr.bind (fun _ => Past.ahead) (fun _ => keeps_node _ _)
    fun _ _ ht => tracks_spanFrom hstart hstart' fun _ _ hspan hspan' => tracks_pure _ _
      fun _ h => ⟨hmake hspan hspan' ht, h⟩

theorem keeps_value {start : Span} {make : Tree → Shape Tree} (hkeeps : Keeps expr) :
    Keeps (expr >>= fun value => spanFrom start >>= fun span =>
      pure (Tree.node span (make value))) :=
  hkeeps.bind fun _ => keeps_node _ _

theorem tracks_letVar (hkeeps : Keeps expr) (hexpr : Gives more ExpressionAlike expr expr) :
    Tracks more (fun s => Ahead depth room s ∧ s.current.lexeme = .letWord) (letVar expr)
      (letVar expr) fun t t' s => StatementAlike t t' ∧ Past depth room s := by
  refine tracks_currentSpan fun start start' hstart hstart' => ?_
  refine tracks_step rfl (fun _ h => h)
    (keeps_expectIdent.bind fun _ => (keeps_expect _).bind fun _ => keeps_value hkeeps) ?_
  refine gives_expectIdent.bind (fun _ => Past.ahead)
    (fun _ => (keeps_expect _).bind fun _ => keeps_value hkeeps) ?_
  rintro name _ rfl
  exact (gives_expect rfl).bind (fun _ => Past.ahead) (fun _ => keeps_value hkeeps)
    fun _ _ _ => tracks_value hstart hstart' hexpr .letVar

theorem tracks_giveBack (hkeeps : Keeps expr) (hexpr : Gives more ExpressionAlike expr expr) :
    Tracks more (fun s => Ahead depth room s ∧ s.current.lexeme = .returnWord) (giveBack expr)
      (giveBack expr) fun t t' s => StatementAlike t t' ∧ Past depth room s :=
  tracks_currentSpan fun _ _ hstart hstart' => tracks_step rfl (fun _ h => h) (keeps_value hkeeps)
    (tracks_value hstart hstart' hexpr .giveBack)

theorem tracks_setVar (hkeeps : Keeps expr) (hexpr : Gives more ExpressionAlike expr expr)
    (name : String) :
    Tracks more (fun s => (Ahead depth room s ∧ s.current.lexeme = .ident name) ∧
      s.second.lexeme = .equals) (setVar expr name) (setVar expr name)
      fun t t' s => StatementAlike t t' ∧ Past depth room s := by
  refine tracks_currentSpan fun start start' hstart hstart' => ?_
  refine Tracks.bind ((tracks_advance (l := .ident name)
    (P := fun s => Ahead depth room s ∧ s.second.lexeme = .equals) (by simp)).mono
    (fun s h => ⟨⟨h.1.1, h.2⟩, h.1.2⟩) fun _ _ _ h => h)
    (fun _ => keeps_advance.bind fun _ => keeps_value hkeeps) fun _ _ => ?_
  refine tracks_step rfl (l := .equals) (fun s h => ?_) (keeps_value hkeeps)
    (tracks_value hstart hstart' hexpr .setVar)
  refine ⟨((h.mono fun s h => h.1).past rfl).ahead, ?_⟩
  obtain ⟨s', ⟨-, hsecond⟩, hrest, -, rfl⟩ := h
  rw [TokenStream.current_advance hrest, hsecond]

theorem gives_statement (hkeeps : Keeps expr) (hexpr : Gives more ExpressionAlike expr expr)
    (hkeeps' : Keeps body') (hbody : Gives more BodyAlike body' body') :
    Gives more StatementAlike (statement expr body') (statement expr body') := by
  intro depth room
  have hvalue : Gives more StatementAlike expr expr := fun depth room =>
    (hexpr depth room).mono (fun _ h => h) fun _ _ _ h => ⟨.expression h.1, h.2⟩
  refine tracks_peek_or (fun found _ => ?_) fun _ _ => hvalue.tracks_of_nil
  split
  · exact tracks_letVar hkeeps hexpr
  · exact tracks_giveBack hkeeps hexpr
  · exact (gives_ifElse hkeeps hexpr hkeeps' hbody depth room).mono (fun s h => h.1) fun _ _ _ h => h
  · exact (gives_forLoop hkeeps hexpr hkeeps' hbody depth room).mono (fun s h => h.1)
      fun _ _ _ h => h
  · exact ((blames_complainWithHelp _ _).bind fun _ => keeps_fnDef hkeeps').tracks
  · next name _ =>
    refine tracks_peekSecond (fun s h => TokenStream.rest_ne_nil (by simp [h.2]))
      (fun second => ?_) (by simp)
    by_cases hsecond : second = .equals
    · subst hsecond
      simp only [if_true]
      exact tracks_setVar hkeeps hexpr name
    · simp only [if_neg hsecond]
      exact (hvalue depth room).mono (fun s h => h.1.1) fun _ _ _ h => h
  · exact (hvalue depth room).mono (fun s h => h.1) fun _ _ _ h => h

/-! ## Bodies -/

/-- A block is read up to its own end, so that what comes after it does not matter. -/
theorem tracks_block (depth room : Nat) (hkeeps : Keeps item) (hitem : Gives more StatementAlike item item) :
    Tracks more (Ahead (depth + 1) room) (block item) (block item) fun ts ts' s =>
      List.Forall₂ StatementAlike ts ts' ∧ s.Level depth ∧ s.rest.length ≤ room ∧
        ∃ t ∈ s.previous?, t.lexeme ≠ .newline := by
  have hitem' : ∀ sofar : Array Tree,
      Keeps (item >>= fun next => endStatement >>= fun _ => pure (sofar.push next, true)) :=
    fun _ => hkeeps.bind fun _ => keeps_endStatement.bind fun _ => keeps_pure _
  have hround : ∀ sofar : Array Tree, Keeps (eat .dedent >>= fun found =>
      if found = true then pure (sofar, false)
      else peek >>= fun l => if l = .eof then pure (sofar, false)
        else item >>= fun next => endStatement >>= fun _ => pure (sofar.push next, true)) :=
    fun _ => (keeps_eat _).bind fun _ => .ite _ (keeps_pure _)
      (keeps_peek.bind fun _ => .ite _ (keeps_pure _) (hitem' _))
  refine Tracks.bind (Q := fun ts ts' s => List.Forall₂ StatementAlike ts.toList ts'.toList ∧
    s.Level depth ∧ s.rest.length ≤ room ∧ ∃ t ∈ s.previous?, t.lexeme ≠ .newline) ?_
    (fun _ => keeps_pure _) fun _ _ => tracks_pure _ _ fun s h => h
  refine (tracks_iterate
    (fun ts ts' s => List.Forall₂ StatementAlike ts.toList ts'.toList ∧ Ahead (depth + 1) room s)
    (fun _ => keeps_skipNewlines.bind fun _ => hround _) (fun ts ts' n => ?_) #[] #[]).mono
    (fun s h => ⟨.nil, h⟩) fun _ _ _ h => h
  refine Tracks.of_fact (fun s h => h.1.1) fun hts => ?_
  refine Tracks.bind ((tracks_skipNewlines (depth + 1) (min room n)).mono
    (fun s h => ⟨h.1.2.1, Nat.le_min.2 ⟨h.1.2.2, h.2⟩⟩) fun _ _ _ h => h) (fun _ => hround _)
    fun _ _ => ?_
  refine Tracks.bind (tracks_eat (by decide) (by decide)) (fun _ => .ite _ (keeps_pure _)
    (keeps_peek.bind fun _ => .ite _ (keeps_pure _) (hitem' _))) fun found found' => ?_
  refine Tracks.of_fact (fun s h => h.1) ?_
  rintro rfl
  cases found' with
  | true =>
    refine tracks_pure _ _ fun s h => ⟨rfl, hts, ?_⟩
    have hpast := (h.2.mono fun s h => h.1).dedent.mono (Nat.min_le_left ..)
    exact ⟨hpast.1, Nat.le_of_lt hpast.2.1, hpast.2.2⟩
  | false =>
    refine tracks_peek_or (fun l hl => ?_) fun l hl =>
      Tracks.of_fact (fun s h => h.1.2.1.1.1.rest_ne_nil h.2) False.elim
    simp only [if_neg hl]
    refine hitem.bind (fun s h => h.1.2.1.1)
      (fun _ => keeps_endStatement.bind fun _ => keeps_pure _) fun t t' ht => ?_
    refine Tracks.bind tracks_endStatement (fun _ => keeps_pure _) fun _ _ => ?_
    refine tracks_pure _ _ fun s h => ⟨rfl, ⟨forall₂_push hts ht, h.1, ?_⟩, ?_⟩
    · exact Nat.le_trans (Nat.le_of_lt h.2) (Nat.min_le_left ..)
    · exact Nat.lt_of_lt_of_le h.2 (Nat.min_le_right ..)

theorem gives_body (room : Nat) : Gives more BodyAlike (body room) (body room) := by
  induction room with
  | zero =>
    intro depth n
    exact (Blames.after fun _ => .after fun _ => (blames_complainWithHelp _ _).bind
      fun _ => keeps_pure _).tracks
  | succ room ih =>
    intro depth n
    have hkeeps := keeps_statement (keeps_expression room 0) (keeps_body room)
    have hitem := gives_statement (keeps_expression room 0) (gives_expression room 0)
      (keeps_body room) ih
    have hitems : ∀ (start : Span) (found : Bool), Keeps (if found = true then
          expect .indent >>= fun _ =>
            block (statement (expression room 0) (body room)) >>= fun items =>
              spanFrom start >>= fun span => pure (Tree.node span (.list items))
        else statement (expression room 0) (body room) >>= fun first =>
          pure [first] >>= fun items =>
            spanFrom start >>= fun span => pure (Tree.node span (.list items))) :=
      fun _ _ => .ite _
        ((keeps_expect _).bind fun _ => (keeps_block hkeeps).bind fun _ => keeps_node _ _)
        (hkeeps.bind fun _ => (keeps_pure _).bind fun _ => keeps_node _ _)
    refine tracks_currentSpan fun start start' hstart hstart' => ?_
    have hdone : ∀ items items', List.Forall₂ StatementAlike items items' →
        Tracks more (Past depth n)
          (spanFrom start >>= fun span => pure (Tree.node span (.list items)))
          (spanFrom start' >>= fun span => pure (Tree.node span (.list items')))
          fun t t' s => BodyAlike t t' ∧ Past depth n s :=
      fun items items' hitems => tracks_spanFrom hstart hstart' fun span span' _ _ =>
        tracks_pure _ _ fun s h => ⟨⟨span, span', items, items', rfl, rfl, hitems⟩, h⟩
    refine Tracks.bind (tracks_eat (by decide) (by decide))
      (fun _ => (keeps_eat _).bind (hitems _)) fun colon colon' => ?_
    refine Tracks.bind (Tracks.mono (tracks_eat (P := Ahead depth n) (by decide) (by decide))
      (fun s h => ?_) fun _ _ _ h => h) (hitems _) fun found found' => ?_
    · cases colon with
      | true => exact (After.past h.2 rfl).ahead
      | false => exact h.2.1
    refine Tracks.of_fact (fun s h => h.1) ?_
    rintro rfl
    cases found' with
    | true =>
      -- A block of its own lines, one level deeper.
      refine Tracks.of_fact (fun s h => Nat.zero_lt_of_lt h.2.newline.2) fun hn => ?_
      refine Tracks.bind ((tracks_expect (P := Ahead depth n) (by decide)).mono
        (fun s h => ⟨h.2.newline.1, Nat.le_of_lt h.2.newline.2⟩) fun _ _ _ h => h)
        (fun _ => (keeps_block hkeeps).bind fun _ => keeps_node _ _) fun _ _ => ?_
      refine Tracks.bind ((tracks_block depth (n - 1) hkeeps hitem).mono
        (fun s h => ?_) fun _ _ _ h => h) (fun _ => keeps_node _ _) fun items items' => ?_
      · obtain ⟨hlevel, hroom⟩ := h.2.2.indent
        exact ⟨hlevel, by omega⟩
      · refine Tracks.of_fact (fun s h => h.1) fun hitems => ?_
        exact (hdone _ _ hitems).mono (fun s h => ⟨h.2.1, by omega, h.2.2.2⟩) fun _ _ _ h => h
    | false =>
      -- A single statement on the same line.
      refine hitem.bind (fun s h => h.2.1) (fun _ => (keeps_pure _).bind fun _ => keeps_node _ _)
        fun t t' ht => ?_
      exact hdone _ _ (.cons ht .nil)

end

/-! ## The top level -/

/-- The second of two lists of items starts with `front`; then the two go on alike. -/
def ItemsAlike (front : List Tree) (items items' : Array Tree) : Prop :=
  List.Forall₂ ItemAlike (front ++ items.toList) items'.toList

theorem ItemsAlike.push {front : List Tree} {items items' : Array Tree} {t t' : Tree}
    (h : ItemsAlike front items items') (ht : ItemAlike t t') :
    ItemsAlike front (items.push t) (items'.push t') := by
  unfold ItemsAlike
  rw [Array.toList_push, Array.toList_push, ← List.append_assoc]
  exact List.rel_append h (.cons ht .nil)

/-- As long as the first text goes on, an item is read from both. -/
theorem tracks_topLevelItem (room : Nat) {front : List Tree} {items items' : Array Tree}
    (hitems : ItemsAlike front items items') :
    Tracks more (fun s => Ahead 0 room s ∧ s.rest ≠ []) (topLevelItem items)
      (topLevelItem items') fun r r' s =>
        (r.2 = true ∧ r'.2 = true ∧ ItemsAlike front r.1 r'.1) ∧
          s.Level 0 ∧ s.rest.length < room := by
  have hend : ∀ item, Keeps (endStatement >>= fun _ => pure (items.push item, true)) :=
    fun _ => keeps_endStatement.bind fun _ => keeps_pure _
  have hdone : ∀ t t', ItemAlike t t' → Tracks more (Past 0 room)
      (endStatement >>= fun _ => pure (items.push t, true))
      (endStatement >>= fun _ => pure (items'.push t', true)) fun r r' s =>
        (r.2 = true ∧ r'.2 = true ∧ ItemsAlike front r.1 r'.1) ∧
          s.Level 0 ∧ s.rest.length < room :=
    fun t t' ht => Tracks.bind tracks_endStatement (fun _ => keeps_pure _) fun _ _ =>
      tracks_pure _ _ fun s h => ⟨⟨rfl, rfl, hitems.push ht⟩, h⟩
  refine tracks_peek_or (fun l hl => ?_) fun _ _ => Tracks.of_fact (fun s h => h.1.2 h.2) False.elim
  split
  · exact absurd rfl hl
  · exact ((blames_complain _).bind fun _ => keeps_advance.bind fun _ => keeps_pure _).tracks
  · exact ((blames_complain _).bind fun _ => keeps_advance.bind fun _ => keeps_pure _).tracks
  · exact (gives_fnDef (keeps_body _) (gives_body _)).bind (fun s h => h.1.1) hend hdone
  · exact (gives_statement (keeps_expression _ _) (gives_expression _ _) (keeps_body _)
      (gives_body _)).bind (fun s h => h.1.1) hend fun t t' ht => hdone t t' (.statement ht)

/-- Empty lines are skipped before an item. -/
def skipped (s : TokenStream) : TokenStream := (skipNewlines s).2

theorem length_skipped_le (s : TokenStream) : (skipped s).rest.length ≤ s.rest.length := by
  have heat : ∀ s, (eat .newline s).2.rest.length ≤ s.rest.length := by
    intro s
    show (ite _ _ _ : Parser Bool) s |>.2.rest.length ≤ _
    split
    · exact Nat.le_trans (Nat.le_of_eq (congrArg List.length s.rest_advance)) (by simp)
    · exact Nat.le_refl _
  have hloop : ∀ s, (iterate (fun _ => return ((), ← eat .newline)) () s).2.rest.length ≤
      s.rest.length := by
    intro s
    generalize () = acc
    fun_induction iterate _ acc s with
    | case1 acc s result h ih => exact Nat.le_trans ih (heat s)
    | case2 acc s result h => exact heat s
  exact hloop s

theorem topLevelStep_apply (items : Array Tree) (s : TokenStream) :
    topLevelStep items s = topLevelItem items (skipped s) := rfl

/-- Where nothing but empty lines is left, the loop ends. -/
theorem iterate_topLevel_of_nil (items : Array Tree) {s : TokenStream} (h : (skipped s).rest = []) :
    iterate topLevelStep items s = (items, skipped s) := by
  have hitem : topLevelItem items (skipped s) = ((items, false), skipped s) := by
    rw [topLevelItem, peek_bind_apply, TokenStream.current_of_nil h]
    rfl
  have hstep : topLevelStep items s = ((items, false), skipped s) := hitem
  rw [iterate_stop (by rw [hstep]), hstep]

/-- The items of a text are read alike from a longer one, which then goes on where the text has
ended. -/
theorem iterate_topLevel_alike {a b : TokenStream} {front : List Tree} {items items' : Array Tree}
    (hab : Abreast more (skipped a) (skipped b)) (hlevel : (skipped a).Level 0)
    (hitems : ItemsAlike front items items')
    (hquiet : (iterate topLevelStep items a).2.complaints = #[]) :
    ∃ b' items'', iterate topLevelStep items' b = iterate topLevelStep items'' b' ∧
      ItemsAlike front (iterate topLevelStep items a).1 items'' ∧
      Abreast more (iterate topLevelStep items a).2 (skipped b') ∧
      (iterate topLevelStep items a).2.rest = [] := by
  induction hlength : a.rest.length using Nat.strongRecOn generalizing a b items items' with
  | ind n ih =>
  by_cases hrest : (skipped a).rest = []
  · rw [iterate_topLevel_of_nil items hrest]
    exact ⟨b, items', rfl, hitems, hab, hrest⟩
  have hround := quiet_round keeps_topLevelStep hquiet
  obtain ⟨hafter, ⟨hgo, hgo', hitems'⟩, hlevel', hless⟩ := tracks_topLevelItem
    (skipped a).rest.length hitems _ _ hab ⟨⟨hlevel, Nat.le_refl _⟩, hrest⟩ hround
  rw [← topLevelStep_apply] at hafter hgo hitems' hlevel' hless
  rw [← topLevelStep_apply] at hafter hgo' hitems'
  have hshorter : (topLevelStep items a).2.rest.length < a.rest.length :=
    Nat.lt_of_lt_of_le hless (length_skipped_le a)
  have hshorter' : (topLevelStep items' b).2.rest.length < b.rest.length := by
    refine Nat.lt_of_lt_of_le ?_ (length_skipped_le b)
    rw [hafter.length, hab.length]
    exact Nat.add_lt_add_right hless _
  rw [iterate_go hgo hshorter] at hquiet ⊢
  rw [iterate_go hgo' hshorter']
  have hskip : (skipped (topLevelStep items a).2).complaints = #[] :=
    keeps_topLevelItem _ _ (quiet_round keeps_topLevelStep hquiet)
  obtain ⟨hafter', ⟨hlevel'', -⟩, -⟩ := tracks_skipNewlines 0
    (topLevelStep items a).2.rest.length _ _ hafter ⟨hlevel', Nat.le_refl _⟩ hskip
  exact ih _ (hlength ▸ hshorter) hafter' hlevel'' hitems' hquiet rfl

/-- The items of a text. -/
def itemsOf (s : TokenStream) : List Tree := (iterate topLevelStep #[] s).1.toList

/-- The text is read without a complaint. -/
def Readable (s : TokenStream) : Prop := (iterate topLevelStep #[] s).2.complaints = #[]

theorem skipped_of_ne {s : TokenStream} (h : s.current.lexeme ≠ .newline) : skipped s = s := by
  have heat : eat .newline s = (false, s) := by
    rw [eat, peek_bind_apply, if_neg h]
    rfl
  have hstep : (eat .newline >>= fun found => pure ((), found) : Parser (Unit × Bool)) s =
      (((), false), s) := by
    show (((), (eat .newline s).1), (eat .newline s).2) = _
    rw [heat]
  show (iterate (fun _ => eat .newline >>= fun found => pure ((), found)) () s).2 = s
  rw [iterate_stop (by rw [hstep]), hstep]

/-- The items that are there stay in front. -/
theorem topLevelItem_extends (items : Array Tree) (s : TokenStream) :
    ∃ ts, (topLevelItem items s).1.1.toList = items.toList ++ ts := by
  rw [topLevelItem, peek_bind_apply]
  generalize s.current.lexeme = l
  split
  · exact ⟨[], (List.append_nil _).symm⟩
  · exact ⟨[], (List.append_nil _).symm⟩
  · exact ⟨[], (List.append_nil _).symm⟩
  · exact ⟨_, Array.toList_push⟩
  · exact ⟨_, Array.toList_push⟩

theorem iterate_topLevel_extends (items : Array Tree) (s : TokenStream) :
    ∃ ts, (iterate topLevelStep items s).1.toList =
      (topLevelStep items s).1.1.toList ++ ts := by
  fun_induction iterate topLevelStep items s with
  | case1 items s result h ih =>
    obtain ⟨ts, hts⟩ := ih
    obtain ⟨ts', hts'⟩ := topLevelItem_extends result.1.1 (skipped result.2)
    rw [← topLevelStep_apply] at hts'
    exact ⟨ts' ++ ts, by rw [hts, hts', List.append_assoc]⟩
  | case2 items s result h => exact ⟨[], (List.append_nil _).symm⟩

end Abacus.Parser

/-! ## Whole texts -/

namespace Abacus.TokenStream

open Abacus.Parser
open Abacus.Tree (ItemAlike)

/-- The tokens of a whole text, before anything of it has been read: they have places, every block is
closed, and every line has an end. -/
structure Whole (s : TokenStream) : Prop where
  fresh : s.previous? = none
  quiet : s.complaints = #[]
  placed : s.Placed
  complete : ∀ t ∈ s.rest.getLast?, t.lexeme = .newline ∨ t.lexeme = .dedent
  unended : ∀ t ∈ s.rest, t.lexeme ≠ .eof
  level : s.Level 0
  first : s.current.lexeme ≠ .newline

namespace Whole

variable {more : List Lexeme} {a b : TokenStream}

theorem abreast (ha : Whole a) (hquiet : b.complaints = #[]) (hplaced : b.Placed)
    (hlexemes : b.lexemes = a.lexemes ++ more) (hmore : ∀ l ∈ more.head?, l = .fnWord) :
    Abreast more a b where
  quiet := ⟨ha.quiet, hquiet⟩
  lexemes := hlexemes
  previous := by simp [ha.fresh]
  complete := by simpa [ha.fresh] using ha.complete
  unended := ha.unended
  onward := hmore
  placed := ⟨ha.placed, hplaced⟩

theorem abreast_self (ha : Whole a) : Abreast [] a a :=
  ha.abreast ha.quiet ha.placed (List.append_nil _).symm (by simp)

/-- What is read from a text stands where it belongs. -/
theorem isItem (ha : Whole a) (hread : Readable a) : ∀ t ∈ itemsOf a, t.IsItem := by
  have hskip := skipped_of_ne ha.first
  have hnone : ItemsAlike [] #[] #[] := .nil
  obtain ⟨_, items, -, hitems, -⟩ := iterate_topLevel_alike (by rw [hskip]; exact ha.abreast_self)
    (by rw [hskip]; exact ha.level) hnone hread
  obtain ⟨hlength, hitems⟩ := List.forall₂_iff_zip.1 hitems
  exact Tree.forall_left hlength fun hmem => (hitems hmem).left

/-- A text without statements starts with a definition, if with anything. -/
theorem fnWord_of_definitions (ha : Whole a) (hread : Readable a)
    (hitems : ∀ t ∈ itemsOf a, ¬ t.IsStatement) : ∀ l ∈ a.lexemes.head?, l = .fnWord := by
  intro l hl
  have hcurrent : a.current.lexeme = l := by
    cases hrest : a.rest with
    | nil => simp [lexemes, hrest] at hl
    | cons t rest => simpa [lexemes, current, hrest] using hl
  have hquiet := quiet_round keeps_topLevelStep hread
  obtain ⟨ts, hts⟩ := iterate_topLevel_extends #[] a
  have hround : topLevelStep #[] a = topLevelItem #[] a := by
    rw [topLevelStep_apply, skipped_of_ne ha.first]
  rw [hround] at hquiet hts
  generalize hitem : topLevelItem #[] a = result at hquiet hts
  rw [topLevelItem, peek_bind_apply, hcurrent] at hitem
  split at hitem
  · obtain ⟨t, ht, hlexeme⟩ := List.mem_map.1 (List.mem_of_mem_head? hl)
    exact absurd hlexeme (ha.unended t ht)
  · rw [← hitem] at hquiet
    exact absurd hquiet (((blames_complain _).bind fun _ => keeps_advance.bind fun _ =>
      keeps_pure _) a)
  · rw [← hitem] at hquiet
    exact absurd hquiet (((blames_complain _).bind fun _ => keeps_advance.bind fun _ =>
      keeps_pure _) a)
  · rfl
  · rw [← hitem] at hquiet hts
    have hstatement := (gives_statement (keeps_expression _ _) (gives_expression _ _) (keeps_body _)
      (gives_body _) 0 a.rest.length a a ha.abreast_self ⟨ha.level, Nat.le_refl _⟩
      (keeps_endStatement _ hquiet)).2.1
    refine absurd hstatement.left (hitems _ ?_)
    rw [itemsOf, hts]
    exact List.mem_append_left _ (show _ ∈ [_] from List.mem_singleton_self _)

end Whole

/-! ## Texts of definitions -/

variable {a b : TokenStream}

/-- What holds of the first element of every list holds of the first element of all of them. -/
theorem head?_flatMap {α β : Type} {f : α → List β} {holds : β → Prop} {xs : List α}
    (h : ∀ x ∈ xs, ∀ y ∈ (f x).head?, holds y) : ∀ y ∈ (xs.flatMap f).head?, holds y := by
  induction xs with
  | nil => simp
  | cons x xs ih =>
    intro y hy
    rw [List.flatMap_cons, List.head?_append] at hy
    cases hhead : (f x).head? with
    | none =>
      rw [hhead] at hy
      exact ih (fun x' h' => h x' (List.mem_cons_of_mem _ h')) y hy
    | some z =>
      rw [hhead] at hy
      obtain rfl : z = y := by simpa using hy
      exact h x List.mem_cons_self z hhead

/-- A text that consists of definitions. -/
structure OfDefinitions (a : TokenStream) : Prop where
  whole : Whole a
  readable : Readable a
  definitions : ∀ t ∈ itemsOf a, ¬ t.IsStatement

theorem OfDefinitions.head (ha : OfDefinitions a) : ∀ l ∈ a.lexemes.head?, l = .fnWord :=
  ha.whole.fnWord_of_definitions ha.readable ha.definitions

/-- After some items, texts of definitions that come one after the other are read like each of them
on its own. -/
theorem iterate_texts {texts : List TokenStream} (htexts : ∀ a ∈ texts, OfDefinitions a)
    {front : List Tree} {items : Array Tree} (hquiet : (skipped b).complaints = #[])
    (hplaced : (skipped b).Placed) (hlexemes : (skipped b).lexemes = texts.flatMap lexemes)
    (hitems : List.Forall₂ ItemAlike front items.toList) :
    (iterate topLevelStep items b).2.complaints = #[] ∧
      List.Forall₂ ItemAlike (front ++ texts.flatMap itemsOf)
        (iterate topLevelStep items b).1.toList := by
  induction texts generalizing b front items with
  | nil =>
    rw [iterate_topLevel_of_nil _ (by simpa [lexemes] using hlexemes)]
    exact ⟨hquiet, by simpa using hitems⟩
  | cons a texts ih =>
    have ha := htexts a List.mem_cons_self
    have htexts' := fun a' h => htexts a' (List.mem_cons_of_mem _ h)
    have hskip := skipped_of_ne ha.whole.first
    have hab := ha.whole.abreast hquiet hplaced (List.flatMap_cons ▸ hlexemes)
      (head?_flatMap fun a' h => (htexts' a' h).head)
    obtain ⟨b', items', hgo, hitems', hab', hrest⟩ := iterate_topLevel_alike (a := a) (b := b)
      (by rw [hskip]; exact hab) (by rw [hskip]; exact ha.whole.level)
      (show ItemsAlike front #[] items by simpa [ItemsAlike] using hitems) ha.readable
    rw [hgo, List.flatMap_cons, ← List.append_assoc]
    refine ih htexts' hab'.quiet.2 hab'.placed.2 ?_ hitems'
    rw [hab'.lexemes]
    simp [lexemes, hrest]

/-- Texts of definitions that come one after the other are read like each of them on its own. -/
theorem itemsOf_texts {texts : List TokenStream} (htexts : ∀ a ∈ texts, OfDefinitions a)
    (hb : Whole b) (hlexemes : b.lexemes = texts.flatMap lexemes) :
    Readable b ∧ List.Forall₂ ItemAlike (texts.flatMap itemsOf) (itemsOf b) := by
  have hskip := skipped_of_ne hb.first
  exact iterate_texts htexts (by rw [hskip]; exact hb.quiet) (by rw [hskip]; exact hb.placed)
    (by rw [hskip]; exact hlexemes) .nil

end Abacus.TokenStream
