import Abacus.Proofs.Grammar.Spelling

/-!
# What spells a program is parsed to its tree

A statement is taken with the end of its line, or with the end of the block that it ends with. Behind a
block that has ended there may be an `else`, and a line end there would be looked behind for one. What
follows a statement of a program is neither.

* `Follows` — what may come behind a statement;
* `ended` — a statement with its end;
* `statement_spelt`, `body_spelt` — statements and bodies, by recursion on each other;
* `program_spelt` — whole programs.
-/

namespace Abacus

namespace Grammar

/-! ## Lexemes -/

/-- The lexemes that an expression is made of. -/
def inExpression : Lexeme → Bool
  | .integer _ | .floating _ | .ident _ | .leftParen | .rightParen | .comma | .plus | .minus | .star
  | .slash | .less | .greater | .equalsEquals => true
  | _ => false

theorem mem_enclose {flag : Bool} {ls : List Lexeme} {l : Lexeme} (h : l ∈ enclose flag ls) :
    l = .leftParen ∨ l = .rightParen ∨ l ∈ ls := by
  unfold enclose at h
  split at h
  · grind
  · exact .inr (.inr h)

mutual

theorem Expression.inExpression_of_mem :
    ∀ (e : Expression) {l : Lexeme}, l ∈ e.lexemes → inExpression l = true
  | .integer _, l, h | .floating .., l, h | .variable _, l, h => by
    obtain rfl := List.mem_singleton.1 h
    rfl
  | .infixOp op left right, l, h => by
    rw [Expression.lexemes, List.mem_append, List.mem_cons] at h
    obtain h | rfl | h := h
    · obtain rfl | rfl | h := mem_enclose h
      · rfl
      · rfl
      · exact left.inExpression_of_mem h
    · cases op <;> rfl
    · obtain rfl | rfl | h := mem_enclose h
      · rfl
      · rfl
      · exact right.inExpression_of_mem h
  | .negate operand, l, h => by
    obtain rfl | h := List.mem_cons.1 h
    · rfl
    · obtain rfl | rfl | h := mem_enclose h
      · rfl
      · rfl
      · exact operand.inExpression_of_mem h
  | .call name arguments, l, h => by
    simp only [Expression.lexemes, parenthesise, List.mem_cons, List.mem_append, List.not_mem_nil,
      or_false] at h
    obtain rfl | rfl | h | rfl := h
    · rfl
    · rfl
    · obtain hcomma | ⟨ls, hls, hl⟩ := mem_intercalate h
      · obtain rfl := List.mem_singleton.1 hcomma
        rfl
      · exact arguments.inExpression_of_mem hls hl
    · rfl

theorem Arguments.inExpression_of_mem : ∀ (arguments : Arguments) {ls : List Lexeme} {l : Lexeme},
    ls ∈ arguments.lexemes → l ∈ ls → inExpression l = true
  | .nil, ls, l, hls, _ => by cases hls
  | .cons first rest, ls, l, hls, hl => by
    obtain rfl | hls := List.mem_cons.1 hls
    · exact first.inExpression_of_mem hl
    · exact rest.inExpression_of_mem hls hl

end

/-- The lexemes that a statement starts with. -/
def startsStatement : Lexeme → Bool
  | .letWord | .returnWord | .ifWord | .forWord => true
  | l => startsExpression l

theorem Statement.lexemes_start (s : Statement) :
    ∃ l rest, s.lexemes = l :: rest ∧ startsStatement l = true := by
  cases s with
  | expression value =>
    obtain ⟨l, rest, hlexemes, hl⟩ := value.lexemes_start
    refine ⟨l, rest ++ [.newline], by rw [Statement.lexemes, hlexemes]; rfl, ?_⟩
    cases l <;> first | exact hl | cases hl
  | _ => exact ⟨_, _, rfl, rfl⟩

theorem Body.lexemes_start (b : Body) :
    ∃ l rest, b.lexemes = l :: rest ∧ startsStatement l = true := by
  cases b with
  | last s => exact s.lexemes_start
  | cons first rest =>
    obtain ⟨l, more, hlexemes, hl⟩ := first.lexemes_start
    exact ⟨l, more ++ rest.lexemes, by rw [Body.lexemes, hlexemes]; rfl, hl⟩

end Grammar

namespace Parser

open TokenStream (bare)
open Grammar

variable {α β : Type} {p : Parser α} {a : α} {b : β} {ls ls' : List Lexeme}
  {before before' : List Lexeme → Prop} {item expr : Parser Tree} {t : Tree} {room : Nat}

/-! ## Looking ahead -/

/-- What can come behind a statement that has ended: no `else`, and no further line end. -/
def Follows (tail : List Lexeme) : Prop :=
  tail.headD .eof ≠ .elseWord ∧ tail.headD .eof ≠ .newline

/-- A line end comes. -/
def AtLineEnd (tail : List Lexeme) : Prop := tail.headD .eof = .newline

theorem follows_of_start {l : Lexeme} (h : startsStatement l = true) : Follows (l :: ls) := by
  constructor
  · rintro rfl
    cases h
  · rintro rfl
    cases h

theorem AtLineEnd.stops {tail : List Lexeme} (h : AtLineEnd tail) {least : Nat} : Stops least tail :=
  stops_of_head h (by simp) rfl

theorem bind_apply (p : Parser α) (next : α → Parser β) (s : TokenStream) :
    (p >>= next) s = next (p s).1 (p s).2 := rfl

theorem peekSecond_bind_apply (next : Lexeme → Parser α) (s : TokenStream) :
    (peekSecond >>= next) s = next s.second.lexeme s := rfl

theorem Consumes.peekSecond {next : Lexeme → Parser β} {l l' : Lexeme}
    (h : Consumes (next l') (l :: l' :: ls) before b) :
    Consumes (Parser.peekSecond >>= next) (l :: l' :: ls) before b := by
  intro read tail htail
  rw [peekSecond_bind_apply, TokenStream.lexeme_second_bare]
  exact h read tail htail

theorem Consumes.map (h : Consumes p ls before a) (f : α → β) : Consumes (f <$> p) ls before (f a) := by
  intro read tail htail
  show (f (p _).1, (p _).2) = _
  rw [h read tail htail]

/-- A parser that only looks ahead goes first. -/
theorem Consumes.look {next : α → Parser β} (h : Consumes p [] before a)
    (hnext : Consumes (next a) ls before' b) (hbefore : ∀ tail, before' tail → before (ls ++ tail)) :
    Consumes (p >>= next) ls before' b := h.bind hnext hbefore

theorem consumes_skipNewlines :
    Consumes skipNewlines [] (fun tail => tail.headD .eof ≠ .newline) () := by
  intro read tail htail
  refine iterate_last ?_
  exact ((consumes_eat_of_ne .newline).ahead (consumes_pure ((), false)) fun _ h => h) read tail htail

theorem consumes_findElse : Consumes findElse [] Follows false := by
  intro read tail htail
  unfold findElse
  rw [peek_bind_apply, List.nil_append, TokenStream.lexeme_current_bare, List.append_nil]
  cases hnext : tail.headD .eof with
  | elseWord => exact absurd hnext htail.1
  | newline => exact absurd hnext htail.2
  | _ => rfl

/-! ## Ends of statements -/

/-- A statement with its end. -/
def ended (item : Parser Tree) : Parser Tree := do
  let next ← item
  endStatement
  return next

/-- A statement that ends with its line. -/
theorem ended_of_line (h : Consumes item ls AtLineEnd t) :
    Consumes (ended item) (ls ++ [.newline]) before t := by
  refine h.bind ((?_ : Consumes endStatement [.newline] before ()).finish (consumes_pure t)) ?_
  · exact (consumes_eat .newline).finish (consumes_pure ())
  · exact fun _ _ => rfl

/-- A statement that ends with a block. -/
theorem ended_of_block (hlast : ls.getLast? = some .dedent) (h : Consumes item ls Follows t) :
    Consumes (ended item) ls Follows t := by
  intro read tail htail
  have hend : endStatement (bare (read ++ ls) tail) = ((), bare (read ++ ls) tail) := by
    have heat := consumes_eat_of_ne .newline (read ++ ls) tail htail.2
    have hdedent : afterDedent (bare (read ++ ls) tail) = (true, bare (read ++ ls) tail) := by
      show ((bare _ tail).previous?.map Token.lexeme == some Lexeme.dedent, _) = _
      simp [bare, List.getLast?_append, hlast]
    rw [List.nil_append, List.append_nil] at heat
    unfold endStatement
    rw [bind_apply, heat]
    show (peek >>= _) _ = _
    rw [peek_bind_apply, bind_apply, hdedent]
    show (if _ then _ else _ : Parser Unit) _ = _
    rw [if_pos (by simp)]
    rfl
  show ((item _).1, (endStatement (item _).2).2) = _
  rw [h read tail htail, hend]

theorem getLast_blockLexemes (ls ls' : List Lexeme) :
    (ls ++ blockLexemes ls').getLast? = some .dedent := by
  simp [blockLexemes, List.getLast?_append, List.getLast?_cons]

/-! ## Statements, given what is inside them -/

section

variable {body' : Parser Tree} {e : Expression} {name : Name} {condition bound : Expression}
  {thenLexemes elseLexemes bodyLexemes : List Lexeme} {thenTrees elseTrees bodyTrees : List Tree}

/-- An expression for a statement: read up to the end of the line. -/
def ReadsLine (expr : Parser Tree) (e : Expression) : Prop :=
  Consumes expr e.lexemes AtLineEnd e.tree

/-- A body as a block. -/
def ReadsBlock (body' : Parser Tree) (ls : List Lexeme) (ts : List Tree) : Prop :=
  Consumes body' (blockLexemes ls) Anything (nowhere (.list ts))

theorem consumes_letVar (h : ReadsLine expr e) :
    Consumes (statement expr body') (.letWord :: .ident name.text :: .equals :: e.lexemes) AtLineEnd
      (nowhere (.letVar name.text e.tree)) := by
  refine Consumes.peek (Consumes.placed ?_)
  refine (consumes_advance .letWord).then ((consumes_expectIdent name.text).then ?_)
  exact (consumes_expect .equals).then (h.finish (consumes_node _))

theorem consumes_giveBack (h : ReadsLine expr e) :
    Consumes (statement expr body') (.returnWord :: e.lexemes) AtLineEnd
      (nowhere (.giveBack e.tree)) := by
  refine Consumes.peek (Consumes.placed ?_)
  exact (consumes_advance .returnWord).then (h.finish (consumes_node _))

theorem consumes_setVar (h : ReadsLine expr e) :
    Consumes (statement expr body') (.ident name.text :: .equals :: e.lexemes) AtLineEnd
      (nowhere (.setVar name.text e.tree)) := by
  refine Consumes.peek (Consumes.peekSecond ?_)
  rw [if_pos rfl]
  refine Consumes.placed ((consumes_advance _).then ?_)
  exact (consumes_advance .equals).then (h.finish (consumes_node _))

/-- An expression is told from an assignment by what comes second. -/
theorem consumes_expressionStatement (h : ReadsLine expr e) :
    Consumes (statement expr body') e.lexemes AtLineEnd e.tree := by
  intro read tail htail
  have hread := h read tail htail
  obtain ⟨l, rest, hlexemes, hl⟩ := e.lexemes_start
  have hsecond : (rest ++ tail).headD .eof ≠ .equals := by
    cases rest with
    | nil =>
      rw [List.nil_append, htail]
      simp
    | cons r rest =>
      have hr := e.inExpression_of_mem (l := r) (by simp [hlexemes])
      rintro rfl
      cases hr
  unfold statement
  rw [peek_bind_apply, TokenStream.lexeme_current_bare]
  rw [hlexemes] at hread ⊢
  rw [List.cons_append, List.headD_cons] at *
  cases l with
  | ident =>
    show (peekSecond >>= _) _ = _
    rw [peekSecond_bind_apply, TokenStream.lexeme_second_bare, List.drop_succ_cons, List.drop_zero,
      if_neg hsecond]
    exact hread
  | integer | floating | leftParen | minus => exact hread
  | _ => cases hl

theorem consumes_ifThen (hcondition : ReadsLine expr condition)
    (hthen : ReadsBlock body' thenLexemes thenTrees) :
    Consumes (statement expr body') (.ifWord :: (condition.lexemes ++ blockLexemes thenLexemes)) Follows
      (nowhere (.ifElse condition.tree (nowhere (.list thenTrees)) none)) := by
  refine Consumes.peek ((consumes_expect .ifWord).then ?_)
  refine hcondition.bind ?_ fun _ _ => rfl
  refine (hthen.ahead ?_ fun _ _ => trivial : Consumes _ (blockLexemes thenLexemes) Follows _)
  exact consumes_findElse.finish (consumes_node _)

theorem consumes_ifElse (hcondition : ReadsLine expr condition)
    (hthen : ReadsBlock body' thenLexemes thenTrees) (helse : ReadsBlock body' elseLexemes elseTrees) :
    Consumes (statement expr body') (.ifWord :: (condition.lexemes ++ (blockLexemes thenLexemes ++
        .elseWord :: blockLexemes elseLexemes))) Anything
      (nowhere (.ifElse condition.tree (nowhere (.list thenTrees))
        (some (nowhere (.list elseTrees))))) := by
  refine Consumes.peek ((consumes_expect .ifWord).then ?_)
  refine hcondition.bind (hthen.then ?_) fun _ _ => rfl
  have hfind : Consumes findElse [] (fun tail => tail.headD .eof = .elseWord) true := by
    intro read tail htail
    unfold findElse
    rw [peek_bind_apply, List.nil_append, TokenStream.lexeme_current_bare, List.append_nil, htail]
    rfl
  refine hfind.look ((consumes_expect .elseWord).then ?_) fun _ _ => rfl
  exact (helse.map some).finish (consumes_node _)

theorem consumes_forLoop (hbound : ReadsLine expr bound)
    (hbody : ReadsBlock body' bodyLexemes bodyTrees) :
    Consumes (statement expr body')
      (.forWord :: .ident name.text :: .less :: (bound.lexemes ++ blockLexemes bodyLexemes)) Anything
      (nowhere (.forLoop name.text bound.tree (nowhere (.list bodyTrees)))) := by
  refine Consumes.peek ((consumes_expect .forWord).then ?_)
  refine (consumes_expectIdent name.text).then ((consumes_expect .less).then ?_)
  exact hbound.bind (hbody.finish (consumes_node _)) fun _ _ => rfl

end

/-! ## Statements one after the other -/

/-- Rounds of a loop take the lexemes and put the trees behind those that are there. -/
def Rounds (round : Array Tree → Parser (Array Tree × Bool)) (ls : List Lexeme) (ts : List Tree) : Prop :=
  ∀ sofar read tail, Follows tail → ∃ all : Array Tree, all.toList = sofar.toList ++ ts ∧
    iterate round sofar (bare read (ls ++ tail)) = iterate round all (bare (read ++ ls) tail)

section

variable {round : Array Tree → Parser (Array Tree × Bool)} {ts ts' : List Tree}

theorem rounds_nil : Rounds round [] [] := by
  intro sofar read tail _
  exact ⟨sofar, by simp, by simp⟩

theorem rounds_single (hne : ls ≠ [])
    (h : ∀ sofar, Consumes (round sofar) ls Follows (sofar.push t, true)) : Rounds round ls [t] :=
  fun sofar read tail htail => ⟨sofar.push t, by simp, iterate_round (h sofar read tail htail) hne⟩

theorem Rounds.append (h : Rounds round ls ts) (h' : Rounds round ls' ts')
    (hstart : ∀ tail, Follows tail → Follows (ls' ++ tail)) : Rounds round (ls ++ ls') (ts ++ ts') := by
  intro sofar read tail htail
  obtain ⟨mid, hmid, hfirst⟩ := h sofar read (ls' ++ tail) (hstart tail htail)
  obtain ⟨all, hall, hsecond⟩ := h' mid (read ++ ls) tail htail
  refine ⟨all, by rw [hall, hmid, List.append_assoc], ?_⟩
  rw [List.append_assoc, hfirst, hsecond, List.append_assoc]

/-- One round of the statements of a block. -/
def blockRound (item : Parser Tree) (sofar : Array Tree) : Parser (Array Tree × Bool) := do
  skipNewlines
  if ← eat .dedent then return (sofar, false)
  else if (← peek) = .eof then return (sofar, false)
  else
    let next ← item
    endStatement
    return (sofar.push next, true)

theorem block_eq (item : Parser Tree) :
    block item = iterate (blockRound item) #[] >>= fun items => pure items.toList := rfl

theorem consumes_blockRound {l : Lexeme} (hl : startsStatement l = true)
    (h : Consumes (ended item) (l :: ls) Follows t) (sofar : Array Tree) :
    Consumes (blockRound item sofar) (l :: ls) Follows (sofar.push t, true) := by
  have hne : ∀ l', startsStatement l' = false → l ≠ l' := by
    rintro l' hl' rfl
    simp [hl] at hl'
  refine consumes_skipNewlines.look ?_ fun _ _ => hne .newline rfl
  refine (consumes_eat_of_ne .dedent).look ?_ fun _ _ => hne .dedent rfl
  refine Consumes.peek ?_
  rw [if_neg (hne .eof rfl)]
  show Consumes (ended item >>= fun next => pure (sofar.push next, true)) _ _ _
  exact h.finish (consumes_pure _)

/-- A block is read up to its end. -/
theorem consumes_block (h : Rounds (blockRound item) ls ts) :
    Consumes (block item) (ls ++ [.dedent]) before ts := by
  intro read tail htail
  obtain ⟨all, hall, hrounds⟩ := h #[] read (.dedent :: tail) ⟨by simp, by simp⟩
  have hlast : Consumes (blockRound item all) [.dedent] before (all, false) := by
    refine consumes_skipNewlines.look ?_ fun _ _ => by simp
    exact (consumes_eat .dedent).finish (consumes_pure (all, false))
  have hend : iterate (blockRound item) all (bare (read ++ ls) (.dedent :: tail)) =
      (all, bare (read ++ ls ++ [.dedent]) tail) := iterate_last (hlast (read ++ ls) tail htail)
  rw [block_eq, bind_apply, List.append_assoc, List.singleton_append, hrounds, hend,
    List.append_assoc]
  exact congrArg (·, _) hall

/-- A body that is a block, given how its statements are read. -/
theorem readsBlock {n : Nat} (hroom : n + 1 ≤ room)
    (h : ∀ room, n ≤ room → Rounds (blockRound (statement (expression room 0) (body room))) ls ts) :
    ReadsBlock (body room) ls ts := by
  cases room with
  | zero => exact absurd hroom (Nat.not_succ_le_zero n)
  | succ room =>
    refine Consumes.placed ?_
    refine (consumes_eat_of_ne .colon).look ?_ fun _ _ => by simp [blockLexemes]
    refine (consumes_eat .newline).then ?_
    rw [if_pos rfl]
    refine (consumes_expect .indent).then ?_
    exact (consumes_block (h room (Nat.le_of_succ_le_succ hroom))).finish (consumes_node _)

end

/-! ## Statements and bodies -/

theorem readsLine (e : Expression) (hroom : e.nesting ≤ room) : ReadsLine (expression room 0) e := by
  have hfits : e.Fits 0 := by cases e <;> simp [Expression.Fits]
  exact ((chained e).expression hroom hfits).mono fun _ htail => htail.stops

/-- The statement, with its end, is read as it is spelt, if there is room for it. -/
def StatementSpelt (s : Statement) : Prop :=
  ∀ room, s.nesting ≤ room →
    Consumes (ended (statement (expression room 0) (body room))) s.lexemes Follows s.tree

/-- The statements of the body are read one after the other, if there is room for them. -/
def BodySpelt (b : Body) : Prop :=
  ∀ room, b.nesting ≤ room →
    Rounds (blockRound (statement (expression room 0) (body room))) b.lexemes b.trees

theorem StatementSpelt.rounds {s : Statement} (h : StatementSpelt s) (hroom : s.nesting ≤ room) :
    Rounds (blockRound (statement (expression room 0) (body room))) s.lexemes [s.tree] := by
  obtain ⟨l, rest, hlexemes, hl⟩ := s.lexemes_start
  have hread := h room hroom
  rw [hlexemes] at hread ⊢
  exact rounds_single (by simp) (consumes_blockRound hl hread)

mutual

/-- Statements are read as they are spelt. -/
theorem statement_spelt : ∀ s : Statement, StatementSpelt s
  | .letVar name value, room, hroom => by
    rw [Statement.nesting] at hroom
    rw [Statement.lexemes, Statement.tree, ← List.cons_append, ← List.cons_append, ← List.cons_append]
    exact ended_of_line (consumes_letVar (readsLine value hroom))
  | .setVar name value, room, hroom => by
    rw [Statement.nesting] at hroom
    rw [Statement.lexemes, Statement.tree, ← List.cons_append, ← List.cons_append]
    exact ended_of_line (consumes_setVar (readsLine value hroom))
  | .giveBack value, room, hroom => by
    rw [Statement.nesting] at hroom
    rw [Statement.lexemes, Statement.tree, ← List.cons_append]
    exact ended_of_line (consumes_giveBack (readsLine value hroom))
  | .expression value, room, hroom => by
    rw [Statement.nesting] at hroom
    rw [Statement.lexemes, Statement.tree]
    exact ended_of_line (consumes_expressionStatement (readsLine value hroom))
  | .ifThen condition thenBody, room, hroom => by
    rw [Statement.nesting, Nat.max_le] at hroom
    rw [Statement.lexemes, Statement.tree]
    refine ended_of_block (getLast_blockLexemes (.ifWord :: condition.lexemes) thenBody.lexemes) ?_
    exact consumes_ifThen (readsLine condition hroom.1) (readsBlock hroom.2 (body_spelt thenBody))
  | .ifElse condition thenBody elseBody, room, hroom => by
    rw [Statement.nesting, Nat.max_le, Nat.max_le] at hroom
    obtain ⟨hcondition, hthen, helse⟩ := hroom
    rw [Statement.lexemes, Statement.tree]
    have hread := consumes_ifElse (readsLine condition hcondition)
      (readsBlock hthen (body_spelt thenBody)) (readsBlock helse (body_spelt elseBody))
    refine ended_of_block ?_ (hread.mono fun _ _ => trivial)
    have hlast := getLast_blockLexemes (.ifWord :: (condition.lexemes ++
      (blockLexemes thenBody.lexemes ++ [.elseWord]))) elseBody.lexemes
    rwa [List.cons_append, List.append_assoc, List.append_assoc, List.singleton_append] at hlast
  | .forLoop index bound loopBody, room, hroom => by
    rw [Statement.nesting, Nat.max_le] at hroom
    rw [Statement.lexemes, Statement.tree]
    refine ended_of_block (getLast_blockLexemes (.forWord :: .ident index.text :: .less :: bound.lexemes)
      loopBody.lexemes) ?_
    exact (consumes_forLoop (readsLine bound hroom.1)
      (readsBlock hroom.2 (body_spelt loopBody))).mono fun _ _ => trivial

/-- Bodies are read as they are spelt. -/
theorem body_spelt : ∀ b : Body, BodySpelt b
  | .last s, _, hroom => (statement_spelt s).rounds hroom
  | .cons first rest, _, hroom => by
    obtain ⟨hfirst, hrest⟩ := Nat.max_le.1 hroom
    refine ((statement_spelt first).rounds hfirst).append (body_spelt rest _ hrest) fun tail _ => ?_
    obtain ⟨l, more, hlexemes, hl⟩ := rest.lexemes_start
    rw [hlexemes]
    exact follows_of_start hl

end

/-! ## Programs -/

theorem elements_parameters (parameters : List Name) :
    Elements expectIdent (parameters.map fun p => [.ident p.text]) (parameters.map Name.text) := by
  induction parameters with
  | nil => exact .nil
  | cons p parameters ih => exact .cons (consumes_expectIdent p.text) ih

theorem consumes_fnDef {body' : Parser Tree} (name : Name) (parameters : List Name)
    (h : ReadsBlock body' ls ts) :
    Consumes (fnDef body') (.fnWord :: .ident name.text ::
        (parenthesise (parameters.map fun p => [.ident p.text]) ++ blockLexemes ls)) Anything
      (nowhere (.fnDef name.text (parameters.map Name.text) (nowhere (.list ts)))) := by
  refine (consumes_expect .fnWord).then ((consumes_expectIdent name.text).then ?_)
  have hparameters := consumes_parenthesised (elements_parameters parameters) (by
    intro first hfirst
    cases parameters with
    | nil => cases hfirst
    | cons p parameters =>
      cases hfirst
      exact ⟨_, [], rfl, by simp⟩)
  exact hparameters.then (h.finish (consumes_node _))

theorem topLevel_start (t : TopLevel) :
    ∃ l rest, t.lexemes = l :: rest ∧ (l = .fnWord ∨ startsStatement l = true) := by
  cases t with
  | function => exact ⟨_, _, rfl, .inl rfl⟩
  | statement s =>
    obtain ⟨l, rest, hlexemes, hl⟩ := s.lexemes_start
    exact ⟨l, rest, hlexemes, .inr hl⟩

theorem follows_of_topLevel (t : TopLevel) (tail : List Lexeme) : Follows (t.lexemes ++ tail) := by
  obtain ⟨l, rest, hlexemes, rfl | hl⟩ := topLevel_start t
  · rw [hlexemes]
    exact ⟨by simp, by simp⟩
  · rw [hlexemes]
    exact follows_of_start hl

/-- What stands at the top level is read as it is spelt. -/
theorem consumes_topLevelStep (t : TopLevel) (hroom : t.nesting ≤ maxNesting) (sofar : Array Tree) :
    Consumes (topLevelStep sofar) t.lexemes Follows (sofar.push t.tree, true) := by
  have hpush : ∀ {item : Parser Tree}, Consumes (ended item) t.lexemes Follows t.tree →
      Consumes (item >>= fun next => endStatement >>= fun _ => pure (sofar.push next, true)) t.lexemes
        Follows (sofar.push t.tree, true) := by
    intro item h
    show Consumes (ended item >>= fun next => pure (sofar.push next, true)) _ _ _
    exact h.finish (consumes_pure _)
  refine consumes_skipNewlines.look ?_ fun tail _ => (follows_of_topLevel t tail).2
  cases t with
  | function name parameters b =>
    have hread := consumes_fnDef name parameters (readsBlock hroom (body_spelt b))
    have hlast := getLast_blockLexemes (.fnWord :: .ident name.text ::
      parenthesise (parameters.map fun p => [.ident p.text])) b.lexemes
    exact Consumes.peek (hpush (ended_of_block hlast (hread.mono fun _ _ => trivial)))
  | statement s =>
    have hread := hpush (statement_spelt s maxNesting hroom)
    obtain ⟨l, rest, hlexemes, hl⟩ := s.lexemes_start
    rw [TopLevel.lexemes, hlexemes] at hread ⊢
    refine Consumes.peek ?_
    cases l with
    | letWord | returnWord | ifWord | forWord => exact hread
    | integer | floating | ident | leftParen | minus => exact hread
    | _ => cases hl

theorem rounds_topLevel (p : Program) (hroom : ∀ t ∈ p, t.nesting ≤ maxNesting) :
    Rounds topLevelStep (programLexemes p) (p.map TopLevel.tree) := by
  induction p with
  | nil => exact rounds_nil
  | cons t p ih =>
    rw [List.forall_mem_cons] at hroom
    have hne : t.lexemes ≠ [] := by
      obtain ⟨l, rest, hlexemes, -⟩ := topLevel_start t
      simp [hlexemes]
    have hfirst : Rounds topLevelStep t.lexemes [t.tree] :=
      rounds_single hne (consumes_topLevelStep t hroom.1)
    refine hfirst.append (ih hroom.2) fun tail htail => ?_
    cases p with
    | nil => exact htail
    | cons next p =>
      show Follows ((next :: p).flatMap TopLevel.lexemes ++ tail)
      rw [List.flatMap_cons, List.append_assoc]
      exact follows_of_topLevel next _

/-- A program is read as it is spelt, up to the end of the text. -/
theorem program_spelt (p : Program) (hroom : ∀ t ∈ p, t.nesting ≤ maxNesting) :
    Consumes program (programLexemes p) (· = []) (programTree p) := by
  have hlast : ∀ all, Consumes (topLevelStep all) [] (· = []) (all, false) := by
    intro all
    refine consumes_skipNewlines.look ?_ fun tail htail => by simp [htail]
    rintro read _ rfl
    rw [List.append_nil, List.append_nil, peek_bind_apply, TokenStream.lexeme_current_bare]
    rfl
  have hitems : Consumes (iterate topLevelStep #[]) (programLexemes p) (· = [])
      (p.map TopLevel.tree).toArray := by
    rintro read _ rfl
    obtain ⟨all, hall, hrounds⟩ := rounds_topLevel p hroom #[] read [] ⟨by simp, by simp⟩
    obtain rfl : all = (p.map TopLevel.tree).toArray := Array.toList_inj.1 hall
    have hend := hlast (p.map TopLevel.tree).toArray (read ++ programLexemes p) [] rfl
    rw [List.append_nil, List.append_nil] at hend
    rw [hrounds, iterate_last hend]
  exact Consumes.placed (hitems.finish (consumes_node _))

end Parser

end Abacus
