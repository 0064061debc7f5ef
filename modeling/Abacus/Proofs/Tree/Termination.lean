import Abacus.Proofs.Tree.Rounds

/-!
# Parsing ends

The parsers without guards do what the guarded ones do, on every text. No round goes on for free: a
statement that has read nothing stands at the beginning of a block or where nesting is too deep, and then
the rest of its line is stepped over. That would not be so right behind the end of a block, but no block
begins there, and where nesting is too deep no block has ended.

* `Unguarded.reads_expression`, `Unguarded.onward_body` — what nests, by induction on the room;
* `Unguarded.pays_endStatement`, `Unguarded.follows_ended` — no statement is for free;
* `Unguarded.follows_program` — whole programs;
* `program_terminates` — whole texts.
-/

namespace Abacus

namespace Unguarded

open Meter

variable {α β : Type} {room : Nat} {I : Meter → Prop} {J : α → Meter → Prop} {p' q' : Unguarded α}
  {p q : Parser α}

/-! ## Expressions -/

/-- What can be read is read; so many levels may be opened. -/
def Reading (room levels : Nat) (p' : Unguarded α) (p : Parser α) : Prop :=
  ∀ m₀ : Meter, Follows room (· = m₀) p' p fun _ => m₀.Reads levels

theorem Reading.moving {levels : Nat} (h : Reading room levels p' p) : Moving room p' p := by
  intro m₀ m hat hmoves
  obtain ⟨m', hrun, hstream, hat', hreads⟩ := h m m hat rfl
  exact ⟨m', hrun, hstream, hat', hmoves.trans hreads.moves⟩

theorem Reading.stays {levels : Nat} {m₀ : Meter} (h : Reading room levels p' p) :
    Follows room m₀.Stays p' p fun _ => m₀.Reads levels := by
  intro m hat hstays
  obtain ⟨m', hrun, hstream, hat', hpays | ⟨hstays', hwhy⟩⟩ := h m m hat rfl
  · exact ⟨m', hrun, hstream, hat', .inl ((hstays.pays.trans hpays).mono (Nat.le_add_left _ _))⟩
  · exact ⟨m', hrun, hstream, hat', .inr ⟨hstays.trans hstays', hstays.current ▸ hwhy⟩⟩

theorem Reading.bind {levels : Nat} {f' : α → Unguarded β} {f : α → Parser β}
    (h : Reading room levels p' p) (hnext : ∀ a, Moving room (f' a) (f a)) :
    Reading room levels (p' >>= f') (p >>= f) := by
  refine fun m₀ => (h m₀).bind fun a m hat hreads => ?_
  obtain ⟨m', hrun, hstream, hat', hmoves⟩ := hnext a m m hat (.inl (Stays.refl m))
  exact ⟨m', hrun, hstream, hat', hreads.trans hmoves⟩

section

variable {expr' : Nat → Unguarded Tree} {expr : Nat → Parser Tree}
  (hexpr : ∀ least, Moving room (expr' least) (expr least))

include hexpr

theorem moving_callOf (name : String) (start : Span) :
    Moving room (callOf (expr' 0) name start) (Parser.callOf (expr 0) name start) :=
  (moving_parenthesised (hexpr 0)).bind fun _ => (moving_lift (Parser.steps_spanFrom _)).bind fun _ =>
    (moving_lift (Parser.steps_spanFrom _)).bind fun _ => moving_pure _

theorem reads_primary : Reading room 1 (primary (expr' 0)) (Parser.primary (expr 0)) := by
  intro m₀
  refine follows_look (p := Parser.currentSpan) (fun _ => rfl) fun start =>
    follows_peek (fun m h => h.1) fun found => ?_
  have hcomplain : Follows room (m₀.StaysAt found)
      (lift (Parser.complain ("expected expression, found " ++ found.description)))
      (Parser.complain ("expected expression, found " ++ found.description))
      fun _ => m₀.StaysAt found := follows_complain fun _ => ⟨_, rfl⟩
  have hlayout : found.isLayout = true → Follows room (m₀.StaysAt found) (pure (Parser.missing start))
      (pure (Parser.missing start)) fun _ => m₀.Reads 1 :=
    fun hfound => follows_pure _ fun m h => .inr ⟨h.stays, .inr (h.stays.current ▸ h.current ▸ hfound)⟩
  have htake : ∀ {f' : Unit → Unguarded Tree} {f : Unit → Parser Tree}, found ≠ .eof →
      Onward room (f' ()) (f ()) → Follows room (m₀.StaysAt found) (lift Parser.advance >>= f')
        (Parser.advance >>= f) fun _ => m₀.Reads 1 :=
    fun heof h => (follows_take heof h).after fun _ _ h => .inl h
  cases found with
  | integer | floating => exact htake (by simp) (onward_pure _)
  | ident name =>
    exact htake (by simp) ((moving_lift Parser.steps_peek).bind fun _ =>
      .ite _ (moving_callOf hexpr name start) (moving_pure _)).onward
  | leftParen =>
    exact htake (by simp) ((hexpr 0).bind fun _ => (moving_lift (Parser.steps_expect _)).bind fun _ =>
      moving_pure _).onward
  | newline | eof | dedent | indent => exact hcomplain.bind fun _ => hlayout rfl
  | _ => exact hcomplain.bind fun _ => htake (by simp) (onward_pure _)

theorem reads_operand : Reading room 1 (operand expr') (Parser.operand expr) := by
  intro m₀
  refine follows_peek (fun m h => h) fun found => ?_
  by_cases hminus : found = .minus
  · subst hminus
    rw [if_pos rfl, if_pos rfl]
    refine follows_look (p := Parser.currentSpan) (fun _ => rfl) fun start => ?_
    exact ((follows_take (l := .minus) nofun ((hexpr _).bind fun _ => moving_pure _).onward).before
      fun _ h => h.1).after fun _ _ h => .inl h
  · rw [if_neg hminus, if_neg hminus]
    exact (reads_primary hexpr).stays.before fun _ h => h.1

theorem moving_operators (least : Nat) (acc : Tree × Bool) :
    Moving room (loop (infixStep expr' least) acc) (Parser.iterate (Parser.infixStep expr least) acc) := by
  refine moving_loop (fun acc m₀ => ?_) acc
  obtain ⟨left, compared⟩ := acc
  refine follows_peek (fun m h => h) fun found => ?_
  have hstop : Follows room (m₀.StaysAt found) (pure ((left, compared), false))
      (pure ((left, compared), false)) fun r m' => if r.2 then m₀.Pays 2 m' else m₀.Moves m' :=
    follows_pure _ fun m h => .inl h.stays
  cases hop : Parser.infixOf? found with
  | none => exact hstop
  | some op =>
    have heof : found ≠ .eof := by
      rintro rfl
      cases hop
    have hgo : Follows room (m₀.StaysAt found)
        (lift Parser.advance >>= fun _ => expr' op.power.2 >>= fun right =>
          pure ((Tree.node (left.span.merge right.span) (.infixOp op left right), op.isComparison), true))
        (Parser.advance >>= fun _ => expr op.power.2 >>= fun right =>
          pure ((Tree.node (left.span.merge right.span) (.infixOp op left right), op.isComparison), true))
        fun r m' => if r.2 then m₀.Pays 2 m' else m₀.Moves m' :=
      (follows_next heof).bind fun _ => ((hexpr _).onward m₀ 2).bind fun _ => follows_pure _ fun _ h => h
    exact .ite _ hstop (.ite _ ((follows_complain fun _ => ⟨_, rfl⟩).bind fun _ => hgo) hgo)

end

/-- An expression is read, or its nesting is too deep, or nothing of it is there. It needs a level more
than there is room. -/
theorem reads_expression (spare room least : Nat) :
    Reading room room (expression (spare + room + 1) least) (Parser.expression room least) := by
  -- By induction on the room: what is inside an expression has one level less.
  induction room generalizing least with
  | zero =>
    intro m₀
    refine (follows_enter_full (I := m₀.Stays) (fun _ _ h h' => h.trans h') ?_).before
      fun m h => h ▸ Stays.refl m₀
    exact follows_look (fun _ => rfl) fun _ => follows_pure _ fun m h => .inr ⟨h.1, .inl rfl⟩
  | succ room ih =>
    have hexpr := fun least => (ih least).moving
    intro m₀
    refine follows_enter (J := fun _ => m₀.Reads (room + 1)) (f := pure)
      (p := Parser.operand (Parser.expression room) >>= fun first =>
        Parser.iterate (Parser.infixStep (Parser.expression room) least) (first, false) >>= fun r => pure r.1)
      ?_ fun tree => follows_pure tree fun _ h => h
    rintro m rfl
    refine (((reads_operand hexpr).bind fun first => (moving_operators hexpr least (first, false)).bind
      fun _ => moving_pure _) m.deeper).after fun _ m' h => ?_
    exact ⟨h.moves.pays.depth, h.shallower⟩

/-! ## Lines -/

section

variable {m₀ : Meter} {l : Lexeme}

/-- A round of stepping over the rest of a line. -/
theorem follows_skipRound : Follows room (· = m₀) (do
      match ← lift Parser.peek with
      | .newline | .eof | .dedent => return ((), false)
      | _ =>
        lift Parser.advance
        return ((), true)) (do
      match ← Parser.peek with
      | .newline | .eof | .dedent => return ((), false)
      | _ =>
        Parser.advance
        return ((), true)) fun r m' =>
      if r.2 then m₀.Pays 2 m' else m₀.Stays m' ∧
        m₀.stream.current.lexeme ∈ [Lexeme.newline, .eof, .dedent] := by
  refine follows_peek (fun m h => h) fun found => ?_
  have hstop : found ∈ [Lexeme.newline, .eof, .dedent] → Follows room (m₀.StaysAt found)
      (pure ((), false)) (pure ((), false)) fun r m' => if r.2 then m₀.Pays 2 m' else m₀.Stays m' ∧
        m₀.stream.current.lexeme ∈ [Lexeme.newline, .eof, .dedent] :=
    fun hfound => follows_pure _ fun m h => ⟨h.1, h.1.current ▸ h.2 ▸ hfound⟩
  have hgo : found ≠ .eof → Follows room (m₀.StaysAt found)
      (lift Parser.advance >>= fun _ => pure ((), true)) (Parser.advance >>= fun _ => pure ((), true))
      fun r m' => if r.2 then m₀.Pays 2 m' else m₀.Stays m' ∧
        m₀.stream.current.lexeme ∈ [Lexeme.newline, .eof, .dedent] :=
    fun heof => (follows_next heof).bind fun _ => follows_pure _ fun _ h => h
  cases found with
  | newline | eof | dedent => exact hstop (by simp)
  | _ => exact hgo (by simp)

theorem moving_skipLine : Moving room skipLine Parser.skipLine :=
  moving_loop (fun _ _ => follows_skipRound.afterRound (fun _ h => h) fun _ h => .inl h.1) ()

/-- On a line with something left, something is stepped over. -/
theorem pays_skipLine (hl : l ∉ [Lexeme.newline, .eof, .dedent]) :
    Follows room (m₀.StaysAt l) skipLine Parser.skipLine fun _ => m₀.Pays 1 := by
  -- Before the first round nothing has been read, and it does not stop there; after it something has.
  refine (follows_loop (I := fun m => m₀.Pays 1 m ∨ m₀.StaysAt l m) (K := m₀.Pays 1)
    (fun _ m hbefore => ?_) ()).before fun m h => .inr h
  have hpays : m₀.Pays 0 m := by
    obtain hpays | ⟨hstays, -⟩ := hbefore
    · exact hpays.mono (Nat.zero_le _)
    · exact hstays.pays
  refine follows_skipRound.afterRound (fun m' h => ⟨h.mono (Nat.le_succ _), .inl ?_⟩) fun m' h => ?_
  · exact (hpays.trans h.again).mono (Nat.le_add_left _ _)
  · obtain hpays | ⟨-, hcurrent⟩ := hbefore
    · exact hpays.trans_zero h.1.pays
    · exact absurd (hcurrent ▸ h.2) hl

theorem moving_endStatement : Moving room endStatement Parser.endStatement :=
  (moving_lift (Parser.steps_eat _)).bind fun _ => .ite _ (moving_pure _) <|
    (moving_lift Parser.steps_peek).bind fun _ => (moving_lift Parser.steps_afterDedent).bind fun _ =>
      .ite _ (moving_pure _) ((moving_lift (Parser.steps_complain _)).bind fun _ =>
        moving_skipLine.bind fun _ => (moving_lift (Parser.steps_eat _)).bind fun _ => moving_pure _)

theorem afterDedent_eq_false {s : TokenStream} (h : ¬ s.AfterDedent) : (Parser.afterDedent s).1 = false := by
  show (s.previous?.map Token.lexeme == some .dedent) = false
  refine beq_eq_false_iff_ne.2 fun heq => h ?_
  obtain ⟨t, ht, hdedent⟩ := Option.map_eq_some_iff.1 heq
  exact ⟨t, ht, hdedent⟩

/-- What is left over on a line is stepped over at its end, but not behind the end of a block. -/
theorem pays_endStatement (hl : l ∉ [Lexeme.newline, .eof, .dedent]) :
    Follows room (fun m => m₀.StaysAt l m ∧ ¬ m.stream.AfterDedent) endStatement Parser.endStatement
      fun _ => m₀.Pays 1 := by
  refine (follows_eat (l := .newline) nofun).bind fun found => ?_
  cases found with
  | true =>
    rw [if_pos rfl, if_pos rfl]
    refine follows_pure _ fun m h => ?_
    obtain ⟨m', ⟨hhere, -⟩, hpays⟩ := h
    exact (hhere.stays.pays.trans hpays).mono (Nat.le_add_left _ _)
  | false =>
    rw [if_neg Bool.false_ne_true, if_neg Bool.false_ne_true]
    refine follows_look (p := Parser.peek) (fun _ => rfl) fun found =>
      follows_look (p := Parser.afterDedent) (fun _ => rfl) fun ended => follows_each fun m _ h => ?_
    obtain ⟨⟨⟨⟨hhere, hdedent⟩, -⟩, rfl⟩, rfl⟩ := h
    rw [afterDedent_eq_false hdedent]
    have hl' : ¬ ((Parser.peek m.stream).1 = .eof || (Parser.peek m.stream).1 = .dedent || false) = true := by
      have hfound : (Parser.peek m.stream).1 = l := hhere.current
      have heof : l ≠ .eof := fun h => hl (by simp [h])
      have hblock : l ≠ .dedent := fun h => hl (by simp [h])
      simp [hfound, heof, hblock]
    rw [if_neg hl', if_neg hl']
    have hbefore : ∀ m', m' = m → m₀.StaysAt l m' := fun m' h => h ▸ hhere
    exact ((follows_complain fun _ => ⟨_, rfl⟩).before hbefore).bind fun _ => (pays_skipLine hl).bind fun _ =>
      ((moving_lift (Parser.steps_eat .newline)).bind fun _ => moving_pure ()).onward m₀ 1

end

/-! ## Statements -/

section

variable {m₀ : Meter} {expr' body' : Unguarded Tree} {expr body : Parser Tree}
  (hexpr : Reading room room expr' expr) (hbody : Onward room body' body)

include hbody

/-- A definition is read from its first word on. -/
theorem pays_fnDef :
    Follows room (m₀.StaysAt .fnWord) (fnDef body') (Parser.fnDef body) fun _ => m₀.Pays 1 := by
  have hparameters : Moving room (parenthesised (lift Parser.expectIdent))
      (Parser.parenthesised Parser.expectIdent) := moving_parenthesised (moving_lift Parser.steps_expectIdent)
  exact (follows_expect (l := .fnWord) nofun).bind fun start =>
    ((moving_lift Parser.steps_expectIdent).onward.bind fun _ => hparameters.onward.bind fun _ =>
      hbody.bind fun _ => (moving_node _ _).onward) m₀ 1

include hexpr

theorem pays_ifElse : Follows room (m₀.StaysAt .ifWord) (ifElse expr' body') (Parser.ifElse expr body)
    fun _ => m₀.Pays 1 :=
  (follows_expect (l := .ifWord) nofun).bind fun _ => (hexpr.moving.onward.bind fun _ =>
    hbody.bind fun _ => (moving_lift Parser.steps_findElse).onward.bind fun _ => .ite _
      ((moving_lift (Parser.steps_expect _)).onward.bind fun _ => (hbody.map some).bind fun _ =>
        (moving_node _ _).onward)
      ((onward_pure _).bind fun _ => (moving_node _ _).onward)) m₀ 1

theorem pays_forLoop : Follows room (m₀.StaysAt .forWord) (forLoop expr' body')
    (Parser.forLoop expr body) fun _ => m₀.Pays 1 :=
  (follows_expect (l := .forWord) nofun).bind fun _ =>
    ((moving_lift Parser.steps_expectIdent).onward.bind fun _ =>
      (moving_lift (Parser.steps_expect _)).onward.bind fun _ => hexpr.moving.onward.bind fun _ =>
        hbody.bind fun _ => (moving_node _ _).onward) m₀ 1

/-- A statement is read, or its nesting is too deep, or nothing of it is there. -/
theorem reads_statement : Reading room room (statement expr' body') (Parser.statement expr body) := by
  intro m₀
  refine follows_peek (fun m h => h) fun found => ?_
  have hpays : ∀ {q' : Unguarded Tree} {q : Parser Tree},
      Follows room (m₀.StaysAt found) q' q (fun _ => m₀.Pays 1) →
      Follows room (m₀.StaysAt found) q' q fun _ => m₀.Reads room :=
    fun h => h.after fun _ _ h => .inl h
  -- The first word is read, and so is all that may come behind it.
  have htake : ∀ {f' : Span → Unguarded Tree} {f : Span → Parser Tree}, found ≠ .eof →
      (∀ start, Onward room (f' start) (f start)) → Follows room (m₀.StaysAt found)
        (lift Parser.currentSpan >>= fun start => lift Parser.advance >>= fun _ => f' start)
        (Parser.currentSpan >>= fun start => Parser.advance >>= fun _ => f start)
        fun _ => m₀.Reads room :=
    fun heof h => follows_look (fun _ => rfl) fun start =>
      ((follows_take heof (h start)).before fun _ h => h.1).after fun _ _ h => .inl h
  have hvalue : ∀ {f' : Tree → Unguarded Tree} {f : Tree → Parser Tree},
      (∀ t, Moving room (f' t) (f t)) →
      Onward room (expr' >>= f') (expr >>= f) :=
    fun h => (hexpr.moving.bind h).onward
  have hexpression : Follows room (m₀.StaysAt found) expr' expr
      fun _ => m₀.Reads room := hexpr.stays.before fun _ h => h.1
  cases found with
  | letWord =>
    exact htake (by simp) fun _ => (moving_lift Parser.steps_expectIdent).onward.bind fun _ =>
      (moving_lift (Parser.steps_expect _)).onward.bind fun _ => hvalue fun _ => moving_node _ _
  | returnWord => exact htake (by simp) fun _ => hvalue fun _ => moving_node _ _
  | ifWord => exact hpays (pays_ifElse hexpr hbody)
  | forWord => exact hpays (pays_forLoop hexpr hbody)
  | fnWord => exact (follows_complain fun _ => ⟨_, rfl⟩).bind fun _ => hpays (pays_fnDef hbody)
  | ident name =>
    refine follows_look (fun _ => rfl) fun second => .ite _ ?_ ?_
    · exact (htake (by simp) fun _ => (moving_lift Parser.steps_advance).onward.bind fun _ =>
        hvalue fun _ => moving_node _ _).before fun _ h => h.1
    · exact hexpression.before fun _ h => h.1
  | _ => exact hexpression

end

/-! ## Blocks -/

theorem eq_indent_of_isLayout {l : Lexeme} (hlayout : l.isLayout = true)
    (hl : l ∉ [Lexeme.newline, .eof, .dedent]) : l = .indent := by
  cases l with
  | indent => rfl
  | newline | eof | dedent => simp at hl
  | _ => cases hlayout

section

variable {m₀ : Meter}

/-- A statement and its end are more than paid for: what the statement has left is stepped over. -/
theorem follows_ended {item' : Unguarded Tree} {item : Parser Tree} (sofar : Array Tree)
    (hitem : Follows room (· = m₀) item' item fun _ => m₀.Reads room)
    (hinside : room = 0 → Parser.Inside item)
    (hl : m₀.stream.current.lexeme ∉ [Lexeme.newline, .eof, .dedent])
    (htidy : m₀.stream.Tidy) (hblock : room = 0 → ¬ m₀.stream.AfterDedent) :
    Follows room (· = m₀)
      (item' >>= fun t => endStatement >>= fun _ => pure (sofar.push t, true))
      (item >>= fun t => Parser.endStatement >>= fun _ => pure (sofar.push t, true)) fun r m =>
        r.2 = true ∧ m₀.Pays 1 m ∧ (room = 0 → ¬ m.stream.AfterDedent) := by
  have hend : Follows room (fun m => m₀.Reads room m ∧ (room = 0 → ¬ m.stream.AfterDedent))
      endStatement Parser.endStatement fun _ => m₀.Pays 1 := by
    rintro m hat ⟨hpays | ⟨hstays, hwhy⟩, hm⟩
    · exact moving_endStatement.onward m₀ 1 m hat hpays
    · -- The statement has read nothing, so it stands at an indentation or where nesting is too deep.
      -- Neither is right behind the end of a block.
      refine pays_endStatement hl m hat ⟨⟨hstays, hstays.current⟩, ?_⟩
      obtain hzero | hlayout := hwhy
      · exact hm hzero
      · rw [hstays.afterDedent]
        exact htidy.not_afterDedent (eq_indent_of_isLayout hlayout hl)
  have hkeep := hitem.keeping (P := fun s => room = 0 → ¬ s.AfterDedent)
    (Q := fun _ s => room = 0 → ¬ s.AfterDedent) fun s h hzero => hinside hzero s (h hzero)
  have hkeep' := hend.keeping (P := fun s => room = 0 → ¬ s.AfterDedent)
    (Q := fun _ s => room = 0 → ¬ s.AfterDedent) fun s h hzero => Parser.inside_endStatement s (h hzero)
  have hbefore : ∀ m, m = m₀ → m = m₀ ∧ (room = 0 → ¬ m.stream.AfterDedent) := fun m h => ⟨h, h ▸ hblock⟩
  exact (hkeep.before hbefore).bind fun t => (hkeep'.before fun m h => ⟨h, h.2⟩).bind fun _ =>
    follows_pure _ fun m h => ⟨rfl, h⟩

end

section

variable {m₀ : Meter} {k : Nat} {item' : Unguarded Tree} {item : Parser Tree}
  (hitem : Reading room room item' item) (hinside : room = 0 → Parser.Inside item)

include hitem hinside

/-- A round of a block that goes on is more than paid for. -/
theorem follows_blockStep (sofar : Array Tree) (hblock : room = 0 → ¬ m₀.stream.AfterDedent) :
    Follows room (· = m₀) (blockStep item' sofar) (do
      Parser.skipNewlines
      if ← Parser.eat .dedent then return (sofar, false)
      else if (← Parser.peek) = .eof then return (sofar, false)
      else
        let next ← item
        Parser.endStatement
        return (sofar.push next, true)) fun r m =>
      if r.2 then m₀.Pays 1 m ∧ (room = 0 → ¬ m.stream.AfterDedent) else m₀.Pays 0 m := by
  have hskip := (moving_skipNewlines m₀ : Follows room _ _ _ _).keeping
    (P := fun s => room = 0 → ¬ s.AfterDedent)
    (Q := fun _ s => (room = 0 → ¬ s.AfterDedent) ∧ s.current.lexeme ≠ .newline)
    fun s h => ⟨fun hzero => Parser.inside_skipNewlines s (h hzero), Parser.current_skipNewlines s⟩
  have hbefore : ∀ m, m = m₀ → m₀.Moves m ∧ (room = 0 → ¬ m.stream.AfterDedent) := by
    rintro m rfl
    exact ⟨.inl (Stays.refl m), hblock⟩
  refine (hskip.before hbefore).bind fun _ =>
    (follows_eat (l := .dedent) nofun).bind fun found => ?_
  cases found with
  | true =>
    refine follows_pure _ fun m h => ?_
    obtain ⟨m', ⟨hmoves, -⟩, hpays⟩ := h
    exact (hmoves.pays.trans hpays).mono (Nat.zero_le _)
  | false =>
    refine follows_look (p := Parser.peek) (fun _ => rfl) fun found => follows_each fun m hat h => ?_
    obtain ⟨⟨⟨hmoves, hm, hnewline⟩, hdedent⟩, hfound⟩ := h
    by_cases heof : found = .eof
    · rw [if_pos heof, if_pos heof]
      exact follows_pure _ fun m' h => h ▸ hmoves.pays
    · rw [if_neg heof, if_neg heof]
      have hl : m.stream.current.lexeme ∉ [Lexeme.newline, .eof, .dedent] := by
        have hcurrent : m.stream.current.lexeme ≠ .eof := fun h => heof (hfound ▸ h)
        simp [hnewline, hdedent, hcurrent]
      refine (follows_ended sofar (hitem m) hinside hl hat.2 hm).after fun r m' h => ?_
      obtain ⟨hmore, hpays, hm'⟩ := h
      rw [if_pos hmore]
      exact ⟨(hmoves.pays.trans hpays).mono (Nat.le_add_left _ _), hm'⟩

/-- The statements of a block are read up to its end. -/
theorem follows_block : Follows room (fun m => m₀.Pays k m ∧ (room = 0 → ¬ m.stream.AfterDedent))
    (block item') (Parser.block item) fun _ => m₀.Pays k := by
  refine (follows_loop (K := m₀.Pays k) (fun sofar m hbefore => ?_) #[]).bind fun _ =>
    follows_pure _ fun _ h => h
  exact (follows_blockStep hitem hinside sofar hbefore.2).afterRound
    (fun _ h => ⟨h.1, hbefore.1.trans_zero h.1.again, h.2⟩) fun _ h => hbefore.1.trans_zero h

end

/-! ## Bodies -/

/-- The statements of a body. -/
def bodyItems (item : Parser Tree) : Parser (List Tree) := do
  if ← Parser.eat .newline then
    let _ ← Parser.expect .indent
    Parser.block item
  else
    return [← item]

theorem body_succ (room : Nat) : Parser.body (room + 1) = (do
    let start ← Parser.currentSpan
    let _ ← Parser.eat .colon
    let items ← bodyItems (Parser.statement (Parser.expression room 0) (Parser.body room))
    return Tree.node (← Parser.spanFrom start) (.list items)) := by
  funext s
  let node : List Tree → Parser Tree := fun items => Parser.spanFrom s.current.span >>= fun span =>
    pure (.node span (.list items))
  let item := Parser.statement (Parser.expression room 0) (Parser.body room)
  have hlines : ∀ (found : Bool) (s : TokenStream),
      (if found = true then Parser.expect .indent >>= fun _ => Parser.block item >>= node
        else item >>= fun t => pure [t] >>= node : Parser Tree) s =
      ((if found = true then Parser.expect .indent >>= fun _ => Parser.block item
        else item >>= fun t => pure [t] : Parser (List Tree)) >>= node) s := by
    intro found s
    cases found <;> rfl
  exact hlines _ _

theorem onward_items {item' : Unguarded Tree} {item : Parser Tree} (hitem : Reading room room item' item)
    (hinside : room = 0 → Parser.Inside item) : Onward room (items item') (bodyItems item) := by
  intro m₀ k
  -- Behind the end of a line no block has ended.
  have heat := ((moving_lift (Parser.steps_eat .newline) : Moving room _ _).onward m₀ k).keeping
    (P := fun _ => True) (Q := fun found s => found = true → ¬ s.AfterDedent)
    fun s _ => Parser.not_afterDedent_eat (l := .newline) nofun nofun s
  refine (heat.before fun m h => ⟨h, trivial⟩).bind fun found => ?_
  cases found with
  | true =>
    have hexpect := ((moving_lift (Parser.steps_expect .indent) : Moving room _ _).onward m₀ k).keeping
      (P := fun s => ¬ s.AfterDedent) (Q := fun _ s => ¬ s.AfterDedent) (Parser.inside_expect .indent nofun)
    exact (hexpect.before fun m h => ⟨h.1, h.2 rfl⟩).bind fun _ =>
      (follows_block hitem hinside).before fun m h => ⟨h.1, fun _ => h.2⟩
  | false =>
    exact ((hitem.moving.onward m₀ k).before fun m h => h.1).bind fun _ =>
      follows_pure _ fun _ h => h

/-- A body is read, and its rounds are paid for, or its nesting is too deep. It needs a level more than
there is room. -/
theorem onward_body (spare room : Nat) : Onward room (body (spare + room + 1)) (Parser.body room) := by
  induction room with
  | zero =>
    intro m₀ k
    refine follows_look (p := Parser.currentSpan) (fun _ => rfl) fun start => ?_
    have heat := (moving_lift (Parser.steps_eat .colon) : Moving 0 _ _).onward m₀ k
    refine (heat.before fun m h => h.1).bind fun _ => ?_
    exact follows_enter_full (fun _ _ h h' => h.trans_zero h'.pays) (follows_pure _ fun _ h => h)
  | succ room ih =>
    have hitems := onward_items (reads_statement (reads_expression spare room 0) ih) fun hzero => by
      subst hzero
      exact Parser.inside_statement_zero
    intro m₀ k
    rw [body_succ]
    refine follows_look (p := Parser.currentSpan) (fun _ => rfl) fun start => ?_
    have heat := (moving_lift (Parser.steps_eat .colon) : Moving (room + 1) _ _).onward m₀ k
    refine (heat.before fun m h => h.1).bind fun _ => ?_
    refine follows_enter (J := fun _ => m₀.Pays k) (fun m hpays => ?_) fun items =>
      (moving_node start _).onward m₀ k
    have hstart : ∀ m', m' = m.deeper → m.deeper.Pays 0 m' := fun m' h => h ▸ (Stays.refl _).pays
    refine ((hitems m.deeper 0).before hstart).after fun _ m' h => ?_
    exact ⟨h.depth, hpays.trans_zero h.shallower⟩

/-! ## Programs -/

/-- A round at the top level that goes on is more than paid for; the last one has come to the end. -/
theorem follows_topLevelStep {m₀ : Meter} (spare : Nat) (sofar : Array Tree) :
    Follows Parser.maxNesting (· = m₀) (topLevelStep (spare + Parser.maxNesting + 1) sofar)
      (Parser.topLevelStep sofar) fun r m =>
      if r.2 then m₀.Pays 1 m else m₀.Pays 0 m ∧ m.stream.current.lexeme = .eof := by
  have hroom : Parser.maxNesting ≠ 0 := nofun
  have hexpr := reads_expression spare Parser.maxNesting 0
  have hbody := onward_body spare Parser.maxNesting
  have hskip := (moving_skipNewlines m₀ : Follows Parser.maxNesting _ _ _ _).keeping (P := fun _ => True)
    (Q := fun _ s => s.current.lexeme ≠ .newline) fun s _ => Parser.current_skipNewlines s
  have hbefore : ∀ m, m = m₀ → m₀.Moves m ∧ True := by
    rintro m rfl
    exact ⟨.inl (Stays.refl m), trivial⟩
  refine (hskip.before hbefore).bind fun _ =>
    follows_look (p := Parser.peek) (fun _ => rfl) fun found => follows_each fun m hat h => ?_
  obtain ⟨⟨hmoves, hnewline⟩, hcurrent : m.stream.current.lexeme = found⟩ := h
  rw [hcurrent] at hnewline
  have hitem : ∀ {q' : Unguarded Tree} {q : Parser Tree}, found ≠ .eof → found ≠ .dedent →
      Follows Parser.maxNesting (· = m) q' q (fun _ => m.Reads Parser.maxNesting) →
      Follows Parser.maxNesting (· = m)
        (q' >>= fun t => endStatement >>= fun _ => pure (sofar.push t, true))
        (q >>= fun t => Parser.endStatement >>= fun _ => pure (sofar.push t, true)) fun r m' =>
          if r.2 then m₀.Pays 1 m' else m₀.Pays 0 m' ∧ m'.stream.current.lexeme = .eof := by
    intro q' q heof hdedent hq
    have hl : m.stream.current.lexeme ∉ [Lexeme.newline, .eof, .dedent] := by
      simp [hcurrent, hnewline, heof, hdedent]
    refine (follows_ended sofar hq (absurd · hroom) hl hat.2 (absurd · hroom)).after fun r m' h => ?_
    obtain ⟨hmore, hpays, -⟩ := h
    rw [if_pos hmore]
    exact (hmoves.pays.trans hpays).mono (Nat.le_add_left _ _)
  have hhere : ∀ m', m' = m → m.StaysAt found m' := by
    rintro m' rfl
    exact ⟨Stays.refl m', hcurrent⟩
  -- Indentation that belongs to nothing is complained about and read.
  have hstray : found ≠ .eof → Follows Parser.maxNesting (· = m)
      (lift (Parser.complain "unexpected indentation") >>= fun _ => lift Parser.advance >>= fun _ =>
        pure (sofar, true))
      (Parser.complain "unexpected indentation" >>= fun _ => Parser.advance >>= fun _ => pure (sofar, true))
      fun r m' => if r.2 then m₀.Pays 1 m' else m₀.Pays 0 m' ∧ m'.stream.current.lexeme = .eof := by
    intro heof
    exact ((follows_complain fun _ => ⟨_, rfl⟩).before hhere).bind fun _ => (follows_next heof).bind fun _ =>
      follows_pure _ fun m' h => (hmoves.pays.trans h).mono (by simp)
  cases found with
  | newline => exact absurd rfl hnewline
  | eof => exact follows_pure _ fun m' h => h ▸ ⟨hmoves.pays, hcurrent⟩
  | indent | dedent => exact hstray nofun
  | fnWord =>
    exact hitem nofun nofun (((pays_fnDef hbody).before hhere).after fun _ _ h => .inl h)
  | _ => exact hitem (by simp) (by simp) (reads_statement hexpr hbody m)

/-- A whole program is read up to its end, and its rounds are paid for. -/
theorem follows_program {m₀ : Meter} (spare : Nat) : Follows Parser.maxNesting (· = m₀)
    (program (spare + Parser.maxNesting + 1)) Parser.program fun _ m =>
      m₀.Pays 0 m ∧ m.stream.current.lexeme = .eof := by
  refine follows_look (p := Parser.currentSpan) (fun _ => rfl) fun start => ?_
  have hitems : Follows Parser.maxNesting (m₀.Pays 0)
      (loop (topLevelStep (spare + Parser.maxNesting + 1)) #[]) (Parser.iterate Parser.topLevelStep #[])
      fun _ m => m₀.Pays 0 m ∧ m.stream.current.lexeme = .eof := by
    refine follows_loop (K := fun m => m₀.Pays 0 m ∧ m.stream.current.lexeme = .eof)
      (fun sofar m hbefore => ?_) #[]
    exact (follows_topLevelStep spare sofar).afterRound (fun _ h => ⟨h, hbefore.trans_zero h.again⟩)
      fun _ h => ⟨hbefore.trans_zero h.1, h.2⟩
  refine (hitems.before fun m h => ?_).bind fun items =>
    follows_look (p := Parser.spanFrom start) (fun _ => rfl) fun _ => follows_pure _ fun _ h => h.1
  obtain ⟨rfl, -⟩ := h
  exact (Stays.refl m).pays

end Unguarded

/-! ## Texts -/

/-- A parser without guards ends on every text, whether it is well-formed or not, and does not need more
levels than may be open and one. -/
theorem program_terminates (text : String) (spare : Nat) :
    let start := Meter.start (scan text).tokens
    let read := Parser.program start.stream
    ∃ m, Unguarded.program (spare + Parser.maxNesting + 1) start = .some (read.1, m) ∧ m.stream = read.2 ∧
      m.stream.current.lexeme = .eof ∧ m.depth = start.depth ∧ m.idle = 0 ∧
      m.rounds ≤ 2 * (scan text).tokens.length := by
  intro start read
  obtain ⟨m, hrun, hstream, -, hpays, heof⟩ := Unguarded.follows_program spare start
    ⟨Nat.zero_add _, tidy_streamOf text⟩ rfl
  refine ⟨m, hrun, hstream, heof, hpays.depth, hpays.idle, ?_⟩
  have htokens := hpays.tokens
  have hlength : start.stream.rest.length ≤ (scan text).tokens.length :=
    (List.takeWhile_prefix _).length_le
  have hrounds : start.rounds = 0 := rfl
  omega

end Abacus
