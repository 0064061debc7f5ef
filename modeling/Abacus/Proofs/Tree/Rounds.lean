import Abacus.Proofs.Tree.Progress
import Abacus.Proofs.Tree.Unguarded

/-!
# Rounds that are paid for

A parser without guards does what the guarded one does as long as no loop goes on for free. Each token that
is read pays for two rounds, so a loop ends if every round that is followed by another one leaves something
over.

* `Meter.Pays` — the rounds between two meters are paid for;
* `Unguarded.Follows` — a parser without guards does what a guarded one does;
* `Unguarded.follows_loop` — a loop whose rounds pay goes round as often as the guarded one;
* `Unguarded.follows_enter` — levels that are opened are closed again;
* `Unguarded.Moving`, `Unguarded.Onward` — the parser pays for more than its rounds, or for its rounds.
-/

namespace Abacus

/-! ## Meters -/

namespace Meter

/-- No round between the meters was idle, and the tokens read between them, which pay for two rounds each,
pay for all rounds and `spare` more. -/
structure Pays (spare : Nat) (m m' : Meter) : Prop where
  depth : m'.depth = m.depth
  idle : m'.idle = m.idle
  rounds : m.rounds ≤ m'.rounds
  tokens : m'.rounds + 2 * m'.stream.rest.length + spare ≤ m.rounds + 2 * m.stream.rest.length

/-- Nothing but complaints is between the meters. -/
structure Stays (m m' : Meter) : Prop where
  depth : m'.depth = m.depth
  idle : m'.idle = m.idle
  rounds : m'.rounds = m.rounds
  rest : m'.stream.rest = m.stream.rest
  previous : m'.stream.previous? = m.stream.previous?

/-- Nothing but complaints is between the meters, and `l` comes next. -/
structure StaysAt (m : Meter) (l : Lexeme) (m' : Meter) : Prop where
  stays : m.Stays m'
  current : m'.stream.current.lexeme = l

/-- Between the meters more than their rounds is paid for, or there is nothing. -/
def Moves (m m' : Meter) : Prop := m.Stays m' ∨ m.Pays 1 m'

/-- So much room is left for nesting, and the stream is tidy. -/
def At (room : Nat) (m : Meter) : Prop := m.depth + room = Parser.maxNesting ∧ m.stream.Tidy

variable {m m' m'' : Meter} {j k : Nat}

/-- More than the rounds is paid for, or nothing has been read: no level may be opened, or there is
nothing on the line. -/
def Reads (room : Nat) (m m' : Meter) : Prop :=
  m.Pays 1 m' ∨ m.Stays m' ∧ (room = 0 ∨ m.stream.current.lexeme.isLayout = true)

theorem Stays.refl (m : Meter) : m.Stays m := ⟨rfl, rfl, rfl, rfl, rfl⟩

theorem Stays.current (h : m.Stays m') : m'.stream.current.lexeme = m.stream.current.lexeme := by
  unfold TokenStream.current
  rw [h.rest]
  cases m.stream.rest <;> rfl

theorem Stays.afterDedent (h : m.Stays m') : m'.stream.AfterDedent ↔ m.stream.AfterDedent := by
  unfold TokenStream.AfterDedent
  rw [h.previous]

theorem Stays.pays (h : m.Stays m') : m.Pays 0 m' :=
  ⟨h.depth, h.idle, h.rounds.ge, by rw [h.rounds, h.rest]; exact Nat.le_refl _⟩

theorem Stays.trans (h : m.Stays m') (h' : m'.Stays m'') : m.Stays m'' :=
  ⟨h'.depth.trans h.depth, h'.idle.trans h.idle, h'.rounds.trans h.rounds, h'.rest.trans h.rest,
    h'.previous.trans h.previous⟩

theorem Pays.trans (h : m.Pays j m') (h' : m'.Pays k m'') : m.Pays (j + k) m'' := by
  obtain ⟨hdepth, hidle, hrounds, htokens⟩ := h
  obtain ⟨hdepth', hidle', hrounds', htokens'⟩ := h'
  exact ⟨hdepth'.trans hdepth, hidle'.trans hidle, hrounds.trans hrounds', by omega⟩

theorem Pays.mono (h : m.Pays j m') (hle : k ≤ j) : m.Pays k m' :=
  ⟨h.depth, h.idle, h.rounds, (Nat.add_le_add_left hle _).trans h.tokens⟩

theorem Pays.trans_zero (h : m.Pays k m') (h' : m'.Pays 0 m'') : m.Pays k m'' := h.trans h'

theorem Moves.pays (h : m.Moves m') : m.Pays 0 m' := by
  obtain h | h := h
  · exact h.pays
  · exact h.mono (Nat.zero_le _)

theorem Moves.trans (h : m.Moves m') (h' : m'.Moves m'') : m.Moves m'' := by
  obtain h | h := h
  · obtain h' | h' := h'
    · exact .inl (h.trans h')
    · exact .inr ((h.pays.trans h').mono (Nat.le_add_left _ _))
  · exact .inr (h.trans_zero h'.pays)

theorem Reads.moves {room : Nat} (h : m.Reads room m') : m.Moves m' := by
  obtain h | ⟨h, -⟩ := h
  · exact .inr h
  · exact .inl h

theorem Reads.trans {room : Nat} (h : m.Reads room m') (h' : m'.Moves m'') : m.Reads room m'' := by
  obtain h | ⟨h, hwhy⟩ := h
  · exact .inl (h.trans_zero h'.pays)
  · obtain h' | h' := h'
    · exact .inr ⟨h.trans h', hwhy⟩
    · exact .inl ((h.pays.trans h').mono (Nat.le_add_left _ _))

/-- Where tokens are left over, some have been read. -/
theorem Pays.shorter (h : m.Pays (k + 1) m') : m'.stream.rest.length < m.stream.rest.length := by
  have hrounds := h.rounds
  have htokens := h.tokens
  omega

/-- One more round costs one, and is not idle. -/
theorem Pays.again (h : m.Pays (k + 1) m') : m.Pays k (m'.again m.stream.rest.length) :=
  ⟨h.depth, (if_pos h.shorter).trans h.idle, Nat.le_succ_of_le h.rounds, by
    have htokens := h.tokens
    show m'.rounds + 1 + 2 * m'.stream.rest.length + k ≤ _
    omega⟩

theorem Pays.shallower (h : m.deeper.Pays k m') : m.Pays k m'.shallower :=
  ⟨by rw [Meter.shallower, h.depth]; rfl, h.idle, h.rounds, h.tokens⟩

theorem Stays.shallower (h : m.deeper.Stays m') : m.Stays m'.shallower :=
  ⟨by rw [Meter.shallower, h.depth]; rfl, h.idle, h.rounds, h.rest, h.previous⟩

/-- What has been read a level deeper has been read. -/
theorem Reads.shallower {room : Nat} (h : m.deeper.Reads 1 m') : m.Reads (room + 1) m'.shallower := by
  obtain h | ⟨h, hzero | hlayout⟩ := h
  · exact .inl h.shallower
  · cases hzero
  · exact .inr ⟨h.shallower, .inr hlayout⟩

theorem At.deeper {room : Nat} (h : m.At (room + 1)) : m.deeper.At room :=
  ⟨(Nat.succ_add_eq_add_succ _ _).trans h.1, h.2⟩

theorem At.shallower {room : Nat} (h : m'.At room) (hdepth : m'.depth = m.depth + 1) :
    m'.shallower.At (room + 1) := by
  refine ⟨?_, h.2⟩
  have hroom := h.1
  show m'.depth - 1 + (room + 1) = _
  omega

end Meter

namespace Unguarded

open Meter

variable {α β γ : Type} {room : Nat} {I I' : Meter → Prop} {J J' : α → Meter → Prop}
  {p' q' : Unguarded α} {p q : Parser α}

/-- With so much room, from where `I` holds, the first parser does what the second one does, with as much
room as before, and then `J` holds. -/
def Follows (room : Nat) (I : Meter → Prop) (p' : Unguarded α) (p : Parser α)
    (J : α → Meter → Prop) : Prop :=
  ∀ m, m.At room → I m → ∃ m', p' m = .some ((p m.stream).1, m') ∧ m'.stream = (p m.stream).2 ∧
    m'.At room ∧ J (p m.stream).1 m'

/-- One parser behind another. -/
theorem bind_apply {f : α → Unguarded β} {a : α} {m m' : Meter} (h : p' m = .some (a, m')) :
    (p' >>= f) m = f a m' := by
  show (p' m).bind (fun r => f r.1 r.2) = _
  rw [h, Part.bind_some]

/-! ## Putting parsers together -/

theorem Follows.before (h : Follows room I p' p J) (hI : ∀ m, I' m → I m) : Follows room I' p' p J :=
  fun m hat hbefore => h m hat (hI m hbefore)

theorem Follows.after (h : Follows room I p' p J) (hJ : ∀ a m, J a m → J' a m) :
    Follows room I p' p J' := by
  intro m hat hbefore
  obtain ⟨m', hrun, hstream, hat', hafter⟩ := h m hat hbefore
  exact ⟨m', hrun, hstream, hat', hJ _ _ hafter⟩

/-- Less is known behind a round that goes on, and behind the last one. -/
theorem Follows.afterRound {r' : Unguarded (β × Bool)} {r : Parser (β × Bool)} {A A' B B' : Meter → Prop}
    (h : Follows room I r' r fun x m => if x.2 then A m else B m) (hmore : ∀ m, A m → A' m)
    (hlast : ∀ m, B m → B' m) : Follows room I r' r fun x m => if x.2 then A' m else B' m := by
  refine h.after fun x m hafter => ?_
  cases hx : x.2 with
  | true =>
    rw [hx, if_pos rfl] at hafter
    exact hmore m hafter
  | false =>
    rw [hx, if_neg Bool.false_ne_true] at hafter
    exact hlast m hafter

theorem follows_pure (a : α) (h : ∀ m, I m → J a m) : Follows room I (pure a) (pure a) J :=
  fun m hat hbefore => ⟨m, rfl, rfl, hat, h m hbefore⟩

theorem Follows.bind {f' : α → Unguarded β} {f : α → Parser β} {K : β → Meter → Prop}
    (h : Follows room I p' p J) (hnext : ∀ a, Follows room (J a) (f' a) (f a) K) :
    Follows room I (p' >>= f') (p >>= f) K := by
  intro m hat hbefore
  obtain ⟨m', hrun, hstream, hat', hafter⟩ := h m hat hbefore
  obtain ⟨m'', hrun', hstream', hat'', hafter'⟩ := hnext _ m' hat' hafter
  rw [hstream] at hrun' hstream' hafter'
  exact ⟨m'', (bind_apply hrun).trans hrun', hstream', hat'', hafter'⟩

theorem Follows.map {f : α → β} {K : β → Meter → Prop} (h : Follows room I p' p fun a => K (f a)) :
    Follows room I (f <$> p') (f <$> p) K := by
  intro m hat hbefore
  obtain ⟨m', hrun, hstream, hat', hafter⟩ := h m hat hbefore
  refine ⟨m', ?_, hstream, hat', hafter⟩
  show (p' m).bind (fun r => .some (f r.1, r.2)) = _
  rw [hrun, Part.bind_some]
  rfl

theorem Follows.ite (c : Prop) [Decidable c] (hp : Follows room I p' p J) (hq : Follows room I q' q J) :
    Follows room I (if c then p' else q') (if c then p else q) J := by
  split
  · exact hp
  · exact hq

/-- Something about the stream is known before and after. -/
theorem Follows.keeping {P : TokenStream → Prop} {Q : α → TokenStream → Prop}
    (h : Follows room I p' p J) (hP : ∀ s, P s → Q (p s).1 (p s).2) :
    Follows room (fun m => I m ∧ P m.stream) p' p fun a m => J a m ∧ Q a m.stream := by
  rintro m hat ⟨hbefore, hstream⟩
  obtain ⟨m', hrun, hstream', hat', hafter⟩ := h m hat hbefore
  exact ⟨m', hrun, hstream', hat', hafter, hstream' ▸ hP _ hstream⟩

/-- It is shown for each meter where `I` holds. -/
theorem follows_each (h : ∀ m, m.At room → I m → Follows room (· = m) p' p J) : Follows room I p' p J :=
  fun m hat hbefore => h m hat hbefore m hat rfl

/-- The stream is only looked at. -/
theorem follows_look {f' : α → Unguarded β} {f : α → Parser β} {K : β → Meter → Prop}
    (h : ∀ s, (p s).2 = s)
    (hnext : ∀ a, Follows room (fun m => I m ∧ (p m.stream).1 = a) (f' a) (f a) K) :
    Follows room I (lift p >>= f') (p >>= f) K := by
  have hlook : Follows room I (lift p) p fun a m => I m ∧ (p m.stream).1 = a := by
    intro m hat hbefore
    refine ⟨m, ?_, (h _).symm, hat, hbefore, rfl⟩
    show Part.some ((p m.stream).1, { m with stream := (p m.stream).2 }) = _
    rw [h]
  exact hlook.bind hnext

/-- A token is read. -/
theorem follows_advance (m₀ : Meter) {k : Nat} {l : Lexeme} (heof : l ≠ .eof) :
    Follows room (fun m => m₀.Pays k m ∧ m.stream.current.lexeme = l) (lift Parser.advance)
      Parser.advance fun _ => m₀.Pays (k + 2) := by
  rintro m hat ⟨hpays, rfl⟩
  obtain ⟨t, rest, hcons⟩ := List.exists_cons_of_ne_nil (TokenStream.rest_ne_nil heof)
  refine ⟨{ m with stream := m.stream.advance }, rfl, rfl, ⟨hat.1, hat.2.advance⟩,
    hpays.trans ⟨rfl, rfl, Nat.le_refl _, ?_⟩⟩
  show m.rounds + 2 * m.stream.advance.rest.length + 2 ≤ m.rounds + 2 * m.stream.rest.length
  rw [TokenStream.rest_advance, hcons, List.tail_cons, List.length_cons]
  omega

/-- A token is read if it is `l`. -/
theorem follows_eat {l : Lexeme} (heof : l ≠ .eof) :
    Follows room I (lift (Parser.eat l)) (Parser.eat l) fun found m' =>
      if found then ∃ m, I m ∧ m.Pays 2 m' else I m' ∧ m'.stream.current.lexeme ≠ l := by
  intro m hat hbefore
  have hlift : lift (Parser.eat l) m =
      .some ((Parser.eat l m.stream).1, { m with stream := (Parser.eat l m.stream).2 }) := rfl
  rw [hlift, Parser.eat_apply]
  by_cases hl : m.stream.current.lexeme = l
  · -- What reads the token is the same as in `follows_advance`, up to the flag.
    obtain ⟨m', hrun, hstream, hat', hpays⟩ := follows_advance m (k := 0) heof m hat
      ⟨(Stays.refl m).pays, hl⟩
    rw [if_pos hl]
    refine ⟨m', ?_, hstream, hat', m, hbefore, hpays⟩
    obtain rfl : _ = m' := congrArg Prod.snd (Part.some_inj.1 hrun)
    rfl
  · rw [if_neg hl]
    exact ⟨m, rfl, rfl, hat, hbefore, hl⟩

/-! ## Going round -/

theorem loop_stop {step : β → Unguarded (β × Bool)} {acc acc' : β} {m m' : Meter}
    (h : step acc m = .some ((acc', false), m')) : loop step acc m = .some (acc', m') := by
  refine Part.eq_some_iff.2 (PFun.fix_stop ?_)
  show _ ∈ (step acc m).map _
  rw [h, Part.map_some]
  exact Part.mem_some _

theorem loop_go {step : β → Unguarded (β × Bool)} {acc acc' : β} {m m' : Meter}
    (h : step acc m = .some ((acc', true), m')) :
    loop step acc m = loop step acc' (m'.again m.stream.rest.length) := by
  refine PFun.fix_fwd_eq ?_
  show _ ∈ (step acc m).map _
  rw [h, Part.map_some]
  exact Part.mem_some _

/-- A loop goes round as often as the guarded one if each of its rounds is paid for. -/
theorem follows_loop {step' : β → Unguarded (β × Bool)} {step : β → Parser (β × Bool)}
    {K : Meter → Prop}
    (hround : ∀ acc m, I m → Follows room (· = m) (step' acc) (step acc) fun r m' =>
      if r.2 then m.Pays 1 m' ∧ I (m'.again m.stream.rest.length) else K m') (acc : β) :
    Follows room I (loop step' acc) (Parser.iterate step acc) fun _ => K := by
  intro m hat hbefore
  -- By induction on the tokens that are left.
  induction hlength : m.stream.rest.length using Nat.strong_induction_on generalizing acc m with
  | _ n ih =>
    obtain ⟨m', hrun, hstream, hat', hafter⟩ := hround acc m hbefore m hat rfl
    obtain ⟨⟨⟨acc', more⟩, s⟩, hr⟩ : ∃ r, step acc m.stream = r := ⟨_, rfl⟩
    rw [hr] at hrun hstream hafter
    cases more with
    | false =>
      rw [loop_stop hrun, Parser.iterate_stop (congrArg (·.1.2) hr), hr]
      exact ⟨m', rfl, hstream, hat', hafter⟩
    | true =>
      obtain ⟨hpays, hagain⟩ := hafter
      have hless : m'.stream.rest.length < m.stream.rest.length := hpays.shorter
      rw [loop_go hrun, Parser.iterate_go (congrArg (·.1.2) hr) (by rw [hr, ← hstream]; exact hless), hr,
        ← hstream]
      exact ih _ (hlength ▸ hless) acc' (m'.again m.stream.rest.length) hat' hagain rfl

/-! ## Reading on -/

/-- The parser reads on and pays for its rounds. -/
def Onward (room : Nat) (p' : Unguarded α) (p : Parser α) : Prop :=
  ∀ (m₀ : Meter) k, Follows room (m₀.Pays k) p' p fun _ => m₀.Pays k

/-- The parser pays for more than its rounds, or leaves the tokens as they are. -/
def Moving (room : Nat) (p' : Unguarded α) (p : Parser α) : Prop :=
  ∀ m₀ : Meter, Follows room m₀.Moves p' p fun _ => m₀.Moves

theorem Moving.onward (h : Moving room p' p) : Onward room p' p := by
  intro m₀ k m hat hpays
  obtain ⟨m', hrun, hstream, hat', hmoves⟩ := h m m hat (.inl (Stays.refl m))
  exact ⟨m', hrun, hstream, hat', hpays.trans_zero hmoves.pays⟩

theorem onward_pure (a : α) : Onward room (pure a) (pure a) := fun _ _ => follows_pure a fun _ h => h

theorem Onward.bind {f' : α → Unguarded β} {f : α → Parser β} (h : Onward room p' p)
    (hnext : ∀ a, Onward room (f' a) (f a)) : Onward room (p' >>= f') (p >>= f) :=
  fun m₀ k => (h m₀ k).bind fun a => hnext a m₀ k

theorem Onward.ite (c : Prop) [Decidable c] (hp : Onward room p' p) (hq : Onward room q' q) :
    Onward room (if c then p' else q') (if c then p else q) := fun m₀ k => .ite c (hp m₀ k) (hq m₀ k)

theorem Onward.map (f : α → β) (h : Onward room p' p) : Onward room (f <$> p') (f <$> p) :=
  fun m₀ k => Follows.map (K := fun _ => m₀.Pays k) (h m₀ k)

theorem moving_pure (a : α) : Moving room (pure a) (pure a) := fun _ => follows_pure a fun _ h => h

theorem Moving.bind {f' : α → Unguarded β} {f : α → Parser β} (h : Moving room p' p)
    (hnext : ∀ a, Moving room (f' a) (f a)) : Moving room (p' >>= f') (p >>= f) :=
  fun m₀ => (h m₀).bind fun a => hnext a m₀

theorem Moving.ite (c : Prop) [Decidable c] (hp : Moving room p' p) (hq : Moving room q' q) :
    Moving room (if c then p' else q') (if c then p else q) := fun m₀ => .ite c (hp m₀) (hq m₀)

theorem moving_lift (h : Parser.Steps p) : Moving room (lift p) p := by
  intro m₀ m hat hmoves
  obtain ⟨htidy, hstream⟩ := h m.stream
  refine ⟨{ m with stream := (p m.stream).2 }, rfl, rfl, ⟨hat.1, htidy hat.2⟩, hmoves.trans ?_⟩
  obtain ⟨hrest, hprevious⟩ | hless := hstream
  · exact .inl ⟨rfl, rfl, rfl, hrest, hprevious⟩
  · refine .inr ⟨rfl, rfl, Nat.le_refl _, ?_⟩
    show m.rounds + 2 * (p m.stream).2.rest.length + 1 ≤ m.rounds + 2 * m.stream.rest.length
    omega

/-- A loop reads on if all its rounds do that go on. -/
theorem moving_loop {step' : β → Unguarded (β × Bool)} {step : β → Parser (β × Bool)}
    (hround : ∀ acc m, Follows room (· = m) (step' acc) (step acc) fun r m' =>
      if r.2 then m.Pays 2 m' else m.Moves m') (acc : β) :
    Moving room (loop step' acc) (Parser.iterate step acc) := by
  refine fun m₀ => follows_loop (fun acc m hmoves => ?_) acc
  refine (hround acc m).afterRound (fun m' h => ⟨h.mono (Nat.le_succ _), .inr ?_⟩) fun _ h => hmoves.trans h
  exact (hmoves.pays.trans h.again).mono (Nat.le_add_left _ _)

/-- Elements that are read, with a comma behind all but the last one. -/
theorem moving_commaSeparated (hp : Moving room p' p) :
    Moving room (commaSeparated p') (Parser.commaSeparated p) := by
  refine (moving_loop (fun acc m => ?_) #[]).bind fun _ => moving_pure _
  refine ((hp m).before fun m' h => ?_).bind fun a =>
    (follows_eat (l := .comma) nofun).bind fun found => follows_pure _ fun m' h => ?_
  · obtain rfl := h
    exact .inl (Stays.refl m')
  · cases found with
    | true =>
      obtain ⟨m'', hmoves, hpays⟩ := h
      exact (hmoves.pays.trans hpays).mono (Nat.le_add_left _ _)
    | false => exact h.1

/-- What is read between parentheses. -/
theorem moving_parenthesised (hp : Moving room p' p) :
    Moving room (parenthesised p') (Parser.parenthesised p) := by
  have hclose : ∀ (start : Span) (elements : List α), Moving room
      (lift (Parser.expect .rightParen) >>= fun _ => pure (start, elements))
      (Parser.expect .rightParen >>= fun _ => pure (start, elements)) :=
    fun _ _ => (moving_lift (Parser.steps_expect _)).bind fun _ => moving_pure _
  exact (moving_lift (Parser.steps_expect _)).bind fun _ => (moving_lift Parser.steps_peek).bind fun _ =>
    .ite _ ((moving_pure _).bind fun _ => hclose _ _)
      ((moving_commaSeparated hp).bind fun _ => hclose _ _)

theorem moving_node (start : Span) (shape : Shape Tree) : Moving room
    (lift (Parser.spanFrom start) >>= fun span => pure (Tree.node span shape))
    (Parser.spanFrom start >>= fun span => pure (Tree.node span shape)) :=
  (moving_lift (Parser.steps_spanFrom _)).bind fun _ => moving_pure _

theorem moving_skipNewlines : Moving room skipNewlines Parser.skipNewlines := by
  refine moving_loop (fun _ m => (follows_eat (l := .newline) nofun).bind fun found =>
    follows_pure _ fun m' h => ?_) ()
  cases found with
  | true =>
    obtain ⟨_, rfl, hpays⟩ := h
    exact hpays
  | false =>
    obtain ⟨rfl, -⟩ := h
    exact .inl (Stays.refl _)

/-! ## Taking a token -/

/-- What `enter` does: a level is opened, and complained about if it is too deep. -/
theorem enter_apply (m : Meter) : enter m = if Parser.maxNesting < m.depth + 1 then
    .some (false, { m.deeper with stream := (Parser.complainTooDeep m.stream).2 })
    else .some (true, m.deeper) := by
  have hopen : (modify Meter.deeper : Unguarded Unit) m = .some ((), m.deeper) := rfl
  have hget : (get : Unguarded Meter) m.deeper = .some (m.deeper, m.deeper) := rfl
  refine (bind_apply hopen).trans ((bind_apply hget).trans ?_)
  show (if Parser.maxNesting < m.depth + 1 then lift Parser.complainTooDeep >>= fun _ => pure false
    else pure true : Unguarded Bool) m.deeper = _
  split
  · exact bind_apply rfl
  · rfl

theorem leave_apply (m : Meter) : leave m = .some ((), m.shallower) := rfl

/-- A level that is too deep is closed at once. -/
theorem follows_enter_full {a' : Unguarded α} (hI : ∀ m m', I m → m.Stays m' → I m')
    (hq : Follows 0 I q' q J) :
    Follows 0 I (enter >>= fun ok => if ok = true then a' else leave >>= fun _ => q')
      (Parser.complainTooDeep >>= fun _ => q) J := by
  intro m hat hbefore
  let full : Meter := { m with stream := (Parser.complainTooDeep m.stream).2 }
  obtain ⟨m', hrun, hstream, hat', hafter⟩ := hq full hat (hI m full hbefore ⟨rfl, rfl, rfl, rfl, rfl⟩)
  refine ⟨m', ?_, hstream, hat', hafter⟩
  have hdeep : Parser.maxNesting < m.depth + 1 := hat.1 ▸ Nat.lt_succ_self _
  rw [bind_apply ((enter_apply m).trans (if_pos hdeep)), if_neg Bool.false_ne_true,
    bind_apply (leave_apply _)]
  exact hrun

/-- A level that may be opened is closed again behind what is read in it. -/
theorem follows_enter {f' : α → Unguarded β} {f : α → Parser β} {b' : Unguarded β}
    {K : β → Meter → Prop}
    (hp : ∀ m, I m → Follows room (· = m.deeper) p' p fun a m' => m'.depth = m.depth + 1 ∧ J a m'.shallower)
    (hnext : ∀ a, Follows (room + 1) (J a) (f' a) (f a) K) :
    Follows (room + 1) I (enter >>= fun ok =>
      if ok = true then p' >>= fun a => leave >>= fun _ => f' a else b') (p >>= f) K := by
  intro m hat hbefore
  obtain ⟨m', hrun, hstream, hat', hdepth, hafter⟩ := hp m hbefore m.deeper hat.deeper rfl
  obtain ⟨m'', hrun', hstream', hat'', hafter'⟩ := hnext _ _ (hat'.shallower hdepth) hafter
  have hshallow : m'.shallower.stream = (p m.stream).2 := hstream
  rw [hshallow] at hrun' hstream' hafter'
  refine ⟨m'', ?_, hstream', hat'', hafter'⟩
  have hdeep : ¬ Parser.maxNesting < m.depth + 1 := by
    have hroom := hat.1
    omega
  rw [bind_apply ((enter_apply m).trans (if_neg hdeep)), if_pos rfl, bind_apply hrun,
    bind_apply (leave_apply _)]
  exact hrun'

section

variable {m₀ : Meter} {l : Lexeme}

/-- It is known what comes. -/
theorem follows_peek {f' : Lexeme → Unguarded α} {f : Lexeme → Parser α} (hI : ∀ m, I m → m = m₀)
    (hnext : ∀ l, Follows room (m₀.StaysAt l) (f' l) (f l) J) :
    Follows room I (lift Parser.peek >>= f') (Parser.peek >>= f) J := by
  refine follows_look (fun _ => rfl) fun l => (hnext l).before fun m h => ?_
  obtain ⟨hbefore, hl⟩ := h
  obtain rfl := hI m hbefore
  exact ⟨Stays.refl _, hl⟩

/-- A complaint reads nothing. -/
theorem follows_complain {p : Parser Unit} (h : ∀ s, ∃ d, (p s).2 = s.complain d) :
    Follows room (m₀.StaysAt l) (lift p) p fun _ => m₀.StaysAt l := by
  rintro m hat ⟨hstays, hl⟩
  obtain ⟨d, hd⟩ := h m.stream
  refine ⟨{ m with stream := (p m.stream).2 }, rfl, rfl, ?_⟩
  rw [hd]
  exact ⟨hat, hstays.trans ⟨rfl, rfl, rfl, rfl, rfl⟩, hl⟩

/-- The next token is read. -/
theorem follows_next (heof : l ≠ .eof) :
    Follows room (m₀.StaysAt l) (lift Parser.advance) Parser.advance fun _ => m₀.Pays 2 :=
  (follows_advance m₀ heof).before fun _ h => ⟨h.1.pays, h.2⟩

/-- A token is read, and more behind it. -/
theorem follows_take {f' : Unit → Unguarded α} {f : Unit → Parser α} (heof : l ≠ .eof)
    (h : Onward room (f' ()) (f ())) :
    Follows room (m₀.StaysAt l) (lift Parser.advance >>= f') (Parser.advance >>= f)
      fun _ => m₀.Pays 1 :=
  (follows_next heof).bind fun _ => (h m₀ 2).after fun _ _ h => h.mono (Nat.le_succ _)

/-- The token that is expected is read. -/
theorem follows_expect (heof : l ≠ .eof) :
    Follows room (m₀.StaysAt l) (lift (Parser.expect l)) (Parser.expect l) fun _ => m₀.Pays 1 := by
  intro m hat hhere
  have hexpect : Parser.expect l m.stream = (m.stream.current.span, m.stream.advance) := by
    show (if m.stream.current.lexeme = l then Parser.advance >>= fun _ => pure m.stream.current.span
      else Parser.complain ("expected " ++ l.description ++ ", found " ++ m.stream.current.lexeme.description)
        >>= fun _ => pure m.stream.current.span : Parser Span) m.stream = _
    rw [if_pos hhere.current]
    rfl
  obtain ⟨m', hrun, hstream, hat', hpays⟩ := follows_next heof m hat hhere
  refine ⟨m', ?_, ?_, hat', hpays.mono (Nat.le_succ _)⟩
  · obtain rfl : _ = m' := congrArg Prod.snd (Part.some_inj.1 hrun)
    show Part.some ((Parser.expect l m.stream).1, { m with stream := (Parser.expect l m.stream).2 }) = _
    rw [hexpect]
    rfl
  · rw [hexpect]
    exact hstream

end

end Unguarded

end Abacus
