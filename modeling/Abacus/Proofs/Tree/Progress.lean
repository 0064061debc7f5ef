import Abacus.Proofs.Tree.Spans

/-!
# How parsers move along a stream

A parser that does not go round reads on or leaves the tokens as they are. The end of a block is read by
its block alone: all other parsers, up to where bodies may be opened, stay inside the block.

* `TokenStream.Tidy` — no block begins right behind the end of one; `tidy_streamOf` for the tokens of a
  text;
* `Parser.Steps` — the parser reads on, or leaves the tokens as they are;
* `Parser.Inside` — the parser does not come behind the end of a block.
-/

namespace Abacus

/-! ## Streams -/

namespace TokenStream

/-- The token read last has ended a block. -/
def AfterDedent (s : TokenStream) : Prop := ∃ t ∈ s.previous?, t.lexeme = .dedent

/-- No block begins right behind the end of one. -/
def Tidy (s : TokenStream) : Prop :=
  (s.previous?.toList ++ s.rest).IsChain fun t t' => t'.lexeme = .indent → t.lexeme ≠ .dedent

variable {s s' : TokenStream}

theorem advance_of_cons {t : Token} {rest : List Token} (h : s.rest = t :: rest) :
    s.advance = { s with previous? := some t, rest := rest } := by
  unfold TokenStream.advance
  rw [h]

theorem Tidy.advance (h : s.Tidy) : s.advance.Tidy := by
  cases hrest : s.rest with
  | nil => rwa [advance_of_nil hrest]
  | cons t rest =>
    rw [advance_of_cons hrest]
    rw [Tidy, hrest] at h
    exact h.right_of_append

theorem Tidy.not_afterDedent (h : s.Tidy) (hindent : s.current.lexeme = .indent) : ¬ s.AfterDedent := by
  rintro ⟨t, ht, hdedent⟩
  cases hrest : s.rest with
  | nil =>
    rw [current_of_nil hrest] at hindent
    cases hindent
  | cons t' rest =>
    rw [Tidy, Option.mem_def.1 ht, hrest] at h
    have hcurrent : s.current = t' := by
      rw [current, hrest]
      rfl
    exact (List.isChain_cons_cons.1 h).1 (hcurrent ▸ hindent) hdedent

theorem not_afterDedent_advance (h : ¬ s.AfterDedent) (hcurrent : s.current.lexeme ≠ .dedent) :
    ¬ s.advance.AfterDedent := by
  by_cases hrest : s.rest = []
  · rwa [advance_of_nil hrest]
  · rintro ⟨t, ht, hdedent⟩
    rw [previous_advance hrest] at ht
    exact hcurrent (Option.some.inj ht ▸ hdedent)

/-- The second stream is the first one with some tokens read, or the first one itself. -/
structure Further (s s' : TokenStream) : Prop where
  tidy : s.Tidy → s'.Tidy
  stays : s'.rest = s.rest ∧ s'.previous? = s.previous? ∨ s'.rest.length < s.rest.length

theorem Further.refl (s : TokenStream) : s.Further s := ⟨id, .inl ⟨rfl, rfl⟩⟩

theorem Further.trans {s'' : TokenStream} (h : s.Further s') (h' : s'.Further s'') : s.Further s'' := by
  refine ⟨h'.tidy ∘ h.tidy, ?_⟩
  obtain ⟨hrest, hprevious⟩ | hless := h.stays
  · rw [← hrest, ← hprevious]
    exact h'.stays
  · obtain ⟨hrest, -⟩ | hless' := h'.stays
    · exact .inr (hrest ▸ hless)
    · exact .inr (hless'.trans hless)

theorem further_advance (s : TokenStream) : s.Further s.advance := by
  refine ⟨Tidy.advance, ?_⟩
  cases hrest : s.rest with
  | nil =>
    rw [advance_of_nil hrest]
    exact .inl ⟨hrest, rfl⟩
  | cons t rest =>
    rw [advance_of_cons hrest]
    exact .inr (Nat.lt_succ_self _)

end TokenStream

/-! ## Parsers that do not go round -/

namespace Parser

variable {α β : Type} {p q : Parser α}

/-- The parser reads on, or leaves the tokens as they are. -/
def Steps (p : Parser α) : Prop := ∀ s : TokenStream, s.Further (p s).2

theorem steps_pure (a : α) : Steps (pure a) := TokenStream.Further.refl

theorem Steps.bind {f : α → Parser β} (h : Steps p) (hnext : ∀ a, Steps (f a)) : Steps (p >>= f) :=
  fun s => (h s).trans (hnext _ _)

theorem Steps.ite (c : Prop) [Decidable c] (hp : Steps p) (hq : Steps q) :
    Steps (if c then p else q) := by
  split
  · exact hp
  · exact hq

theorem steps_peek : Steps peek := TokenStream.Further.refl

theorem steps_peekSecond : Steps peekSecond := TokenStream.Further.refl

theorem steps_currentSpan : Steps currentSpan := TokenStream.Further.refl

theorem steps_spanFrom (start : Span) : Steps (spanFrom start) := TokenStream.Further.refl

theorem steps_afterDedent : Steps afterDedent := TokenStream.Further.refl

theorem steps_complain (message : String) : Steps (complain message) :=
  fun _ => ⟨id, .inl ⟨rfl, rfl⟩⟩

theorem steps_advance : Steps advance := TokenStream.further_advance

theorem steps_eat (l : Lexeme) : Steps (eat l) :=
  steps_peek.bind fun _ => .ite _ (steps_advance.bind fun _ => steps_pure _) (steps_pure _)

theorem steps_expect (l : Lexeme) : Steps (expect l) :=
  steps_currentSpan.bind fun _ => steps_peek.bind fun _ => .ite _
    (steps_advance.bind fun _ => steps_pure _) ((steps_complain _).bind fun _ => steps_pure _)

theorem steps_expectIdent : Steps expectIdent := by
  refine steps_peek.bind fun found => ?_
  split
  · exact steps_advance.bind fun _ => steps_pure _
  · exact (steps_complain _).bind fun _ => steps_pure _

theorem steps_findElse : Steps findElse := by
  refine steps_peek.bind fun found => ?_
  split
  · exact steps_pure _
  · exact steps_peekSecond.bind fun _ => .ite _ (steps_advance.bind fun _ => steps_pure _) (steps_pure _)
  · exact steps_pure _

/-- What comes is stepped over if it is `l`. -/
theorem eat_apply (l : Lexeme) (s : TokenStream) :
    eat l s = if s.current.lexeme = l then (true, s.advance) else (false, s) := by
  show (if s.current.lexeme = l then advance >>= fun _ => pure true else pure false : Parser Bool) s = _
  split <;> rfl

/-! ### Parsers that read no end of a block -/

/-- The parser does not come behind the end of a block. -/
def Inside (p : Parser α) : Prop := ∀ s : TokenStream, ¬ s.AfterDedent → ¬ (p s).2.AfterDedent

theorem inside_pure (a : α) : Inside (pure a) := fun _ h => h

theorem Inside.bind {f : α → Parser β} (h : Inside p) (hnext : ∀ a, Inside (f a)) : Inside (p >>= f) :=
  fun s hs => hnext _ _ (h s hs)

theorem Inside.ite (c : Prop) [Decidable c] (hp : Inside p) (hq : Inside q) :
    Inside (if c then p else q) := by
  split
  · exact hp
  · exact hq

theorem Inside.map (h : Inside p) (f : α → β) : Inside (f <$> p) := h

theorem inside_iterate {step : β → Parser (β × Bool)} (h : ∀ acc, Inside (step acc)) (acc : β) :
    Inside (iterate step acc) := by
  intro s
  fun_induction iterate step acc s with
  | case1 acc s result hgo ih => exact fun hs => ih (h acc s hs)
  | case2 acc s result hgo => exact h acc s

theorem inside_look (h : ∀ s, (p s).2 = s) : Inside p := fun s hs => (h s).symm ▸ hs

theorem inside_complain (message : String) : Inside (complain message) := fun _ h => h

theorem inside_complainWithHelp (message help : String) : Inside (complainWithHelp message help) :=
  fun _ h => h

/-- What comes is known, and it is stepped over if it does not end a block. -/
theorem inside_peek {f : Lexeme → Parser α}
    (h : ∀ l s, s.current.lexeme = l → ¬ s.AfterDedent → ¬ (f l s).2.AfterDedent) :
    Inside (peek >>= f) := fun s hs => h _ s rfl hs

theorem inside_eat (l : Lexeme) (hl : l ≠ .dedent) : Inside (eat l) := by
  intro s hs
  rw [eat_apply]
  split
  · next hcurrent => exact TokenStream.not_afterDedent_advance hs (hcurrent ▸ hl)
  · exact hs

theorem inside_expect (l : Lexeme) (hl : l ≠ .dedent) : Inside (expect l) :=
  (inside_look fun _ => rfl).bind fun _ => inside_peek fun found s hcurrent hs => by
    split
    · next hfound => exact TokenStream.not_afterDedent_advance hs (hcurrent ▸ hfound ▸ hl)
    · exact hs

theorem inside_expectIdent : Inside expectIdent :=
  inside_peek fun found s hcurrent hs => by
    split
    · exact TokenStream.not_afterDedent_advance hs (by rw [hcurrent]; exact nofun)
    · exact hs

theorem inside_skipNewlines : Inside skipNewlines :=
  inside_iterate (fun _ => (inside_eat .newline nofun).bind fun _ => inside_pure _) ()

theorem inside_skipLine : Inside skipLine := by
  refine inside_iterate (fun _ => inside_peek fun found s hcurrent hs => ?_) ()
  cases found with
  | newline | eof | dedent => exact hs
  | _ => exact TokenStream.not_afterDedent_advance hs (by simp [hcurrent])

theorem inside_endStatement : Inside endStatement :=
  (inside_eat .newline nofun).bind fun _ => .ite _ (inside_pure _) <|
    (inside_look (p := peek) fun _ => rfl).bind fun _ =>
      (inside_look (p := afterDedent) fun _ => rfl).bind fun _ => .ite _ (inside_pure _)
        ((inside_complain _).bind fun _ => inside_skipLine.bind fun _ =>
          (inside_eat .newline nofun).bind fun _ => inside_pure _)

theorem inside_commaSeparated (hp : Inside p) : Inside (commaSeparated p) :=
  (inside_iterate (fun _ => hp.bind fun _ => (inside_eat .comma nofun).bind fun _ =>
    inside_pure _) #[]).bind fun _ => inside_pure _

theorem inside_parenthesised (hp : Inside p) : Inside (parenthesised p) := by
  have hclose : ∀ (start : Span) (elements : List α),
      Inside (expect .rightParen >>= fun _ => pure (start, elements)) :=
    fun _ _ => (inside_expect .rightParen nofun).bind fun _ => inside_pure _
  exact (inside_expect .leftParen nofun).bind fun _ => (inside_look (p := peek) fun _ => rfl).bind fun _ =>
    .ite _ ((inside_pure _).bind fun _ => hclose _ _)
      ((inside_commaSeparated hp).bind fun _ => hclose _ _)

theorem inside_findElse : Inside findElse := by
  refine inside_peek fun found s hcurrent hs => ?_
  split
  · exact hs
  · show ¬ ((if s.second.lexeme = .elseWord then advance >>= fun _ => pure true else pure false :
      Parser Bool) s).2.AfterDedent
    split
    · exact TokenStream.not_afterDedent_advance hs (by simp [hcurrent])
    · exact hs
  · exact hs

theorem inside_node (start : Span) (shape : Shape Tree) :
    Inside (spanFrom start >>= fun span => pure (Tree.node span shape)) := fun _ h => h

section

variable {expr body' : Parser Tree} (hexpr : Inside expr) (hbody : Inside body')

include hbody

theorem inside_fnDef : Inside (fnDef body') :=
  (inside_expect .fnWord nofun).bind fun _ => inside_expectIdent.bind fun _ =>
    (inside_parenthesised inside_expectIdent).bind fun _ => hbody.bind fun _ => inside_node _ _

include hexpr

theorem inside_ifElse : Inside (ifElse expr body') :=
  (inside_expect .ifWord nofun).bind fun _ => hexpr.bind fun _ => hbody.bind fun _ =>
    inside_findElse.bind fun _ => .ite _
      ((inside_expect .elseWord nofun).bind fun _ => (hbody.map some).bind fun _ => inside_node _ _)
      ((inside_pure _).bind fun _ => inside_node _ _)

theorem inside_forLoop : Inside (forLoop expr body') :=
  (inside_expect .forWord nofun).bind fun _ => inside_expectIdent.bind fun _ =>
    (inside_expect .less nofun).bind fun _ => hexpr.bind fun _ => hbody.bind fun _ => inside_node _ _

theorem inside_statement : Inside (statement expr body') := by
  refine inside_peek fun found s hcurrent hs => ?_
  have hvalue : ∀ f : Tree → Shape Tree, ∀ start, Inside (expr >>= fun value =>
      spanFrom start >>= fun span => pure (Tree.node span (f value))) :=
    fun f start => hexpr.bind fun _ => inside_node _ _
  -- The first word of a statement is known, so reading it does not end a block.
  have hword : found ≠ .dedent → ¬ s.advance.AfterDedent :=
    fun hfound => TokenStream.not_afterDedent_advance hs (hcurrent ▸ hfound)
  cases found with
  | letWord =>
    exact (inside_expectIdent.bind fun _ => (inside_expect .equals nofun).bind fun _ => hvalue _ _) _
      (hword nofun)
  | returnWord => exact hvalue _ _ _ (hword nofun)
  | ifWord => exact inside_ifElse hexpr hbody s hs
  | forWord => exact inside_forLoop hexpr hbody s hs
  | fnWord => exact (inside_complainWithHelp _ _).bind (fun _ => inside_fnDef hbody) s hs
  | ident name =>
    show ¬ ((if s.second.lexeme = .equals then setVar expr name else expr : Parser Tree) s).2.AfterDedent
    split
    · next hsecond =>
      have hrest : s.rest ≠ [] := TokenStream.rest_ne_nil (by simp [hcurrent])
      refine hvalue _ _ _ (TokenStream.not_afterDedent_advance (hword nofun) ?_)
      rw [TokenStream.current_advance hrest, hsecond]
      exact nofun
    · exact hexpr s hs
  | _ => exact hexpr s hs

end

/-- Where no level may be opened, no block ends. -/
theorem inside_statement_zero : Inside (statement (expression 0 0) (body 0)) :=
  inside_statement
    ((inside_complainWithHelp _ _).bind fun _ => (inside_look (p := currentSpan) fun _ => rfl).bind fun _ =>
      inside_pure _)
    ((inside_look (p := currentSpan) fun _ => rfl).bind fun _ => (inside_eat .colon nofun).bind fun _ =>
      (inside_complainWithHelp _ _).bind fun _ => inside_pure _)

/-- Behind a token that has been read no block has ended, if it is not the end of a block. -/
theorem not_afterDedent_eat {l : Lexeme} (hl : l ≠ .dedent) (heof : l ≠ .eof) (s : TokenStream)
    (h : (eat l s).1 = true) : ¬ (eat l s).2.AfterDedent := by
  rw [eat_apply] at h ⊢
  split at h
  · next hcurrent =>
    rw [if_pos hcurrent]
    rintro ⟨t, ht, hdedent⟩
    rw [TokenStream.previous_advance (TokenStream.rest_ne_nil (hcurrent ▸ heof))] at ht
    obtain rfl := Option.some.inj ht
    exact hl (hcurrent ▸ hdedent)
  · cases h

/-- After line ends have been skipped, something else comes. -/
theorem current_skipNewlines (s : TokenStream) : (skipNewlines s).2.current.lexeme ≠ .newline := by
  unfold skipNewlines
  fun_induction iterate (fun _ => do return ((), ← eat .newline)) () s with
  | case1 _ s result hgo ih => exact ih
  | case2 _ s result hstop =>
    -- The last round has found no line end: one that it had found would have shortened the stream.
    have hresult : result = (((), (eat .newline s).1), (eat .newline s).2) := rfl
    rw [hresult] at hstop ⊢
    rw [eat_apply] at hstop ⊢
    split
    · next hcurrent =>
      refine absurd ?_ hstop
      obtain ⟨t, rest, hcons⟩ := List.exists_cons_of_ne_nil
        (TokenStream.rest_ne_nil (s := s) (by simp [hcurrent]))
      rw [if_pos hcurrent, TokenStream.rest_advance, hcons]
      exact ⟨rfl, Nat.lt_succ_self _⟩
    · next hcurrent => exact hcurrent

end Parser

/-- In the tokens of a text no block begins right behind the end of one. -/
theorem tidy_streamOf (text : String) : (streamOf text).Tidy := by
  have hchain := isChain_readLines [0] (linesOf text)
  rw [← lexemesOf_eq, lexemesOf, tokens_eq_streamOf, List.map_append] at hchain
  have hrest := (List.isChain_map Token.lexeme).1 hchain.tail.left_of_append
  refine hrest.imp (S := fun t t' => t'.lexeme = .indent → t.lexeme ≠ .dedent) ?_
  intro t t' hadjoins hindent
  rw [hadjoins.1 hindent]
  decide

end Abacus
