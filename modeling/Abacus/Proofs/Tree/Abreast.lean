import Abacus.Proofs.Tree.Complaints
import Abacus.Proofs.Tree.Positions

/-!
# Reading two texts side by side

Two token streams are read side by side. The second one has the lexemes of the first, at other
places, and after them it may go on with a function definition. As long as nothing is complained
about in the first one, a parser takes the same lexemes from both and gives the same result, up to
places. The tokens that follow do not matter, because a statement has been read to its end before
they are looked at: a block is not closed before its `dedent`, and the last line of the first stream
has an end of its own.

* `Abreast` — the two streams;
* `TokenStream.Ahead`, `TokenStream.Past` — how far the reading has come;
* `Tracks` — two parsers do the same on two such streams;
* `tracks_eat`, `tracks_expect`, `tracks_iterate`, `tracks_parenthesised` — the steps that parsers
  are made of.
-/

namespace Abacus

/-- Does the lexeme stand for a change of line, of indentation, or for the end? -/
def Lexeme.isLayout : Lexeme → Bool
  | newline | indent | dedent | eof => true
  | _ => false

namespace TokenStream

/-- The lexemes still to come. -/
def lexemes (s : TokenStream) : List Lexeme := s.rest.map Token.lexeme

/-- All tokens have a place, and so has the end. -/
structure Placed (s : TokenStream) : Prop where
  finish : s.finish.IsPlace
  previous : ∀ t ∈ s.previous?, t.span.IsPlace
  rest : ∀ t ∈ s.rest, t.span.IsPlace

/-- So many blocks are open: as many more ends of blocks than beginnings are still to come. -/
def Level (depth : Nat) (s : TokenStream) : Prop :=
  s.lexemes.count .dedent = s.lexemes.count .indent + depth

/-- Before something is read: at most `room` tokens are left. -/
def Ahead (depth room : Nat) (s : TokenStream) : Prop :=
  s.Level depth ∧ s.rest.length ≤ room

/-- After something has been read that does not end in the end of a line: fewer than `room` tokens
are left. -/
def Past (depth room : Nat) (s : TokenStream) : Prop :=
  s.Level depth ∧ s.rest.length < room ∧ ∃ t ∈ s.previous?, t.lexeme ≠ .newline

/-- The stream is one lexeme further than where `before` held. -/
def After (before : TokenStream → Prop) (lexeme : Lexeme) (s : TokenStream) : Prop :=
  ∃ s', before s' ∧ s'.rest ≠ [] ∧ s'.current.lexeme = lexeme ∧ s = s'.advance

variable {s : TokenStream} {depth room : Nat} {lexeme : Lexeme}

theorem rest_ne_nil (h : s.current.lexeme ≠ .eof) : s.rest ≠ [] := by
  intro hnil
  simp [current, hnil] at h

theorem current_of_nil (h : s.rest = []) : s.current.lexeme = .eof := by
  simp [current, h]

theorem current_advance (h : s.rest ≠ []) : s.advance.current = s.second := by
  obtain ⟨t, rest, hcons⟩ := List.exists_cons_of_ne_nil h
  simp [TokenStream.advance, current, second, hcons]

theorem Placed.current (h : s.Placed) : s.current.span.IsPlace := by
  unfold TokenStream.current
  cases hrest : s.rest with
  | nil => exact h.finish
  | cons t rest => exact h.rest t (by simp [hrest])

theorem Placed.previousSpan (h : s.Placed) : s.previousSpan.IsPlace := by
  unfold TokenStream.previousSpan
  split
  · next t hprevious => exact h.previous t hprevious
  · exact h.current

theorem Placed.advance (h : s.Placed) : s.advance.Placed := by
  unfold TokenStream.advance
  split
  · exact h
  · next t rest hrest =>
    refine ⟨h.finish, fun t' ht' => ?_, fun t' ht' => h.rest t' (by simp [hrest, ht'])⟩
    cases ht'
    exact h.rest t (by simp [hrest])

theorem Past.ahead (h : s.Past depth room) : s.Ahead depth room := ⟨h.1, Nat.le_of_lt h.2.1⟩

theorem Past.mono {room' : Nat} (h : s.Past depth room) (hroom : room ≤ room') :
    s.Past depth room' := ⟨h.1, by have := h.2.1; omega, h.2.2⟩

theorem After.mono {before before' : TokenStream → Prop} (h : After before lexeme s)
    (hbefore : ∀ s, before s → before' s) : After before' lexeme s := by
  obtain ⟨s', h, hrest⟩ := h
  exact ⟨s', hbefore s' h, hrest⟩

/-- Where a lexeme has been read, the stream had it at its front. -/
theorem After.cons {before : TokenStream → Prop} (h : After before lexeme s) :
    ∃ s', before s' ∧ s'.lexemes = lexeme :: s.lexemes ∧ s'.rest.length = s.rest.length + 1 ∧
      ∃ t ∈ s.previous?, t.lexeme = lexeme := by
  obtain ⟨s', hbefore, hrest, rfl, rfl⟩ := h
  obtain ⟨t, rest, hcons⟩ := List.exists_cons_of_ne_nil hrest
  exact ⟨s', hbefore, by simp [lexemes, current, hcons], by simp [hcons],
    t, by simp [TokenStream.advance, hcons], by simp [current, hcons]⟩

theorem After.past (h : After (Ahead depth room) lexeme s) (hlexeme : lexeme.isLayout = false) :
    s.Past depth room := by
  obtain ⟨s', ⟨hlevel, hroom⟩, hcons, hlength, t, ht, rfl⟩ := h.cons
  refine ⟨?_, by omega, t, ht, fun h => by simp [h, Lexeme.isLayout] at hlexeme⟩
  have hdedent : t.lexeme ≠ .dedent := fun h => by simp [h, Lexeme.isLayout] at hlexeme
  have hindent : t.lexeme ≠ .indent := fun h => by simp [h, Lexeme.isLayout] at hlexeme
  unfold Level at hlevel ⊢
  rwa [hcons, List.count_cons_of_ne hdedent, List.count_cons_of_ne hindent] at hlevel

theorem After.newline (h : After (Ahead depth room) .newline s) :
    s.Level depth ∧ s.rest.length < room := by
  obtain ⟨s', ⟨hlevel, hroom⟩, hcons, hlength, -⟩ := h.cons
  refine ⟨?_, by omega⟩
  unfold Level at hlevel ⊢
  rwa [hcons, List.count_cons_of_ne (by decide), List.count_cons_of_ne (by decide)] at hlevel

theorem After.indent (h : After (Ahead depth room) .indent s) :
    s.Level (depth + 1) ∧ s.rest.length < room := by
  obtain ⟨s', ⟨hlevel, hroom⟩, hcons, hlength, -⟩ := h.cons
  refine ⟨?_, by omega⟩
  unfold Level at hlevel ⊢
  rw [hcons, List.count_cons_of_ne (by decide), List.count_cons_self] at hlevel
  omega

theorem After.dedent (h : After (Ahead (depth + 1) room) .dedent s) : s.Past depth room := by
  obtain ⟨s', ⟨hlevel, hroom⟩, hcons, hlength, t, ht, hlexeme⟩ := h.cons
  refine ⟨?_, by omega, t, ht, by simp [hlexeme]⟩
  unfold Level at hlevel ⊢
  rw [hcons, List.count_cons_self, List.count_cons_of_ne (by decide)] at hlevel
  omega

/-- A text does not end in an open block. -/
theorem Level.rest_ne_nil (h : s.Level (depth + 1)) : s.rest ≠ [] := by
  intro hnil
  simp [Level, lexemes, hnil] at h

end TokenStream

namespace Parser

open TokenStream (Ahead Past After)

/-! ## Two streams -/

/-- The second stream has the lexemes of the first one and then `more`, which starts with a function
definition if there is more. What has been read last is the same. Nothing has been complained about,
all tokens have places, and the last line of the first stream is complete. -/
structure Abreast (more : List Lexeme) (a b : TokenStream) : Prop where
  quiet : a.complaints = #[] ∧ b.complaints = #[]
  lexemes : b.lexemes = a.lexemes ++ more
  previous : ∀ t ∈ a.previous?, ∃ t' ∈ b.previous?, t'.lexeme = t.lexeme
  complete : ∀ t ∈ (a.previous?.toList ++ a.rest).getLast?,
    t.lexeme = .newline ∨ t.lexeme = .dedent
  unended : ∀ t ∈ a.rest, t.lexeme ≠ .eof
  onward : ∀ lexeme ∈ more.head?, lexeme = .fnWord
  placed : a.Placed ∧ b.Placed

variable {more : List Lexeme} {a b : TokenStream}

namespace Abreast

theorem length (h : Abreast more a b) : b.rest.length = a.rest.length + more.length := by
  have hlength := congrArg List.length h.lexemes
  simpa [TokenStream.lexemes] using hlength

/-- As long as the first stream goes on, the same lexeme comes next. -/
theorem current (h : Abreast more a b) (hrest : a.rest ≠ []) :
    b.current.lexeme = a.current.lexeme ∧ a.current.lexeme ≠ .eof ∧ b.rest ≠ [] := by
  obtain ⟨t, rest, hcons⟩ := List.exists_cons_of_ne_nil hrest
  have hlexemes := h.lexemes
  have hend := h.unended t (by simp [hcons])
  simp only [TokenStream.lexemes, hcons, List.map_cons, List.cons_append] at hlexemes
  obtain ⟨t', rest', hcons', hlexeme, -⟩ := List.map_eq_cons_iff.1 hlexemes
  simp [TokenStream.current, hcons, hcons', hlexeme, hend]

/-- Where the first stream ends, the second one ends as well, or a function definition comes. -/
theorem current_of_nil (h : Abreast more a b) (hrest : a.rest = []) :
    b.current.lexeme = .eof ∨ b.current.lexeme = .fnWord := by
  have hlexemes := h.lexemes
  simp only [TokenStream.lexemes, hrest, List.map_nil, List.nil_append] at hlexemes
  cases hb : b.rest with
  | nil => exact .inl (TokenStream.current_of_nil hb)
  | cons t rest =>
    refine .inr (h.onward _ ?_)
    simp [← hlexemes, hb, TokenStream.current]

theorem second (h : Abreast more a b) : b.second.lexeme = a.second.lexeme ∨
    a.second.lexeme = .eof ∧ b.second.lexeme = .fnWord ∨ a.rest = [] := by
  have hlexemes := h.lexemes
  unfold TokenStream.second
  cases ha : a.rest with
  | nil => exact .inr (.inr rfl)
  | cons t rest =>
    simp only [TokenStream.lexemes, ha, List.map_cons, List.cons_append] at hlexemes
    obtain ⟨t', rest', hb, -, hrest⟩ := List.map_eq_cons_iff.1 hlexemes
    cases rest with
    | nil =>
      rw [List.map_nil, List.nil_append] at hrest
      cases rest' with
      | nil => simp [hb]
      | cons u rest' => exact .inr (.inl ⟨by simp, by simpa [hb] using h.onward _ (by simp [← hrest])⟩)
    | cons u rest =>
      obtain ⟨u', rest', rfl, hu, -⟩ := List.map_eq_cons_iff.1 hrest
      exact .inl (by simp [hb, hu])

theorem advance (h : Abreast more a b) (hrest : a.rest ≠ []) :
    Abreast more a.advance b.advance := by
  obtain ⟨t, rest, hcons⟩ := List.exists_cons_of_ne_nil hrest
  have hlexemes := h.lexemes
  simp only [TokenStream.lexemes, hcons, List.map_cons, List.cons_append] at hlexemes
  obtain ⟨t', rest', hcons', hlexeme, hrest'⟩ := List.map_eq_cons_iff.1 hlexemes
  have ha : a.advance = { a with previous? := some t, rest := rest } := by
    simp only [TokenStream.advance, hcons]
  have hb : b.advance = { b with previous? := some t', rest := rest' } := by
    simp only [TokenStream.advance, hcons']
  refine ⟨by simpa using h.quiet, ?_, ?_, ?_, ?_, h.onward, h.placed.1.advance, h.placed.2.advance⟩
  · simpa [ha, hb, TokenStream.lexemes] using hrest'
  · simp [ha, hb, hlexeme]
  · intro u hu
    refine h.complete u ?_
    rw [ha] at hu
    simpa [hcons, List.getLast?_append, List.getLast?_cons] using hu
  · intro u hu
    rw [ha] at hu
    exact h.unended u (by simp [hcons, hu])

/-- Once the first stream is at its end and the line end before has not been read, it has ended in
the end of a block. -/
theorem previous_dedent (h : Abreast more a b) (hrest : a.rest = [])
    (hprevious : ∃ t ∈ a.previous?, t.lexeme ≠ .newline) :
    (b.previous?.map Token.lexeme == some .dedent) = true := by
  obtain ⟨t, ht, hnewline⟩ := hprevious
  obtain ⟨t', ht', hlexeme⟩ := h.previous t ht
  have hend := h.complete t (by simp [hrest, Option.mem_def.1 ht])
  rw [Option.mem_def.1 ht', Option.map_some, hlexeme, hend.resolve_left hnewline]
  rfl

end Abreast

/-! ## Two parsers -/

variable {α β γ δ : Type} {P P' : TokenStream → Prop} {p : Parser α} {q : Parser β}
  {Q Q' : α → β → TokenStream → Prop} {R : γ → δ → TokenStream → Prop}

/-- If `P` holds of the first of two streams and the first parser does not complain on it, then the
second parser does not complain on the second one, both stop at the same lexeme, and `Q` holds of
their results and of the first stream. -/
def Tracks (more : List Lexeme) (P : TokenStream → Prop) (p : Parser α) (q : Parser β)
    (Q : α → β → TokenStream → Prop) : Prop :=
  ∀ a b, Abreast more a b → P a → (p a).2.complaints = #[] →
    Abreast more (p a).2 (q b).2 ∧ Q (p a).1 (q b).1 (p a).2

theorem Tracks.mono (h : Tracks more P p q Q) (hP : ∀ s, P' s → P s)
    (hQ : ∀ x y s, Q x y s → Q' x y s) : Tracks more P' p q Q' := by
  intro a b hab ha hquiet
  obtain ⟨hafter, hpost⟩ := h a b hab (hP a ha) hquiet
  exact ⟨hafter, hQ _ _ _ hpost⟩

/-- A precondition that comes with a fact. -/
theorem Tracks.of_fact {fact : Prop} (hfact : ∀ s, P s → fact)
    (h : fact → Tracks more P p q Q) : Tracks more P p q Q :=
  fun a b hab ha hquiet => h (hfact a ha) a b hab ha hquiet

theorem tracks_pure (x : α) (y : β) (h : ∀ s, P s → Q x y s) :
    Tracks more P (pure x) (pure y) Q :=
  fun a _ hab ha _ => ⟨hab, h a ha⟩

theorem Tracks.bind {f : α → Parser γ} {g : β → Parser δ} (h : Tracks more P p q Q)
    (hkeeps : ∀ x, Keeps (f x)) (hnext : ∀ x y, Tracks more (Q x y) (f x) (g y) R) :
    Tracks more P (p >>= f) (q >>= g) R := by
  intro a b hab ha hquiet
  obtain ⟨hafter, hpost⟩ := h a b hab ha (hkeeps _ _ hquiet)
  exact hnext _ _ _ _ hafter hpost hquiet

/-! ## Complaints -/

/-- The parser complains, whatever comes. -/
def Blames (p : Parser α) : Prop := ∀ s, (p s).2.complaints ≠ #[]

theorem blames_complain (message : String) : Blames (complain message) :=
  fun s => s.complaints_complain_ne _

theorem blames_complainWithHelp (message help : String) : Blames (complainWithHelp message help) :=
  fun s => s.complaints_complain_ne _

theorem Blames.bind {next : α → Parser γ} (h : Blames p) (hkeeps : ∀ x, Keeps (next x)) :
    Blames (p >>= next) := fun s hquiet => h s (hkeeps _ _ hquiet)

theorem Blames.after {next : α → Parser γ} (h : ∀ x, Blames (next x)) : Blames (p >>= next) :=
  fun s => h (p s).1 (p s).2

/-- Nothing has to be shown where the first parser complains. -/
theorem Blames.tracks (h : Blames p) : Tracks more P p q Q :=
  fun a _ _ _ hquiet => absurd hquiet (h a)

/-! ## Looking at the streams -/

theorem peek_bind_apply (next : Lexeme → Parser α) (s : TokenStream) :
    (peek >>= next) s = next s.current.lexeme s := rfl

section

variable {f : Lexeme → Parser α} {g : Lexeme → Parser β}

/-- The same lexeme comes in both streams, or the first one is at its end. -/
theorem tracks_peek_or
    (hsame : ∀ l, l ≠ .eof →
      Tracks more (fun s => P s ∧ s.current.lexeme = l) (f l) (g l) Q)
    (hend : ∀ l, l = .eof ∨ l = .fnWord →
      Tracks more (fun s => P s ∧ s.rest = []) (f .eof) (g l) Q) :
    Tracks more P (peek >>= f) (peek >>= g) Q := by
  intro a b hab ha hquiet
  rw [peek_bind_apply] at hquiet
  rw [peek_bind_apply, peek_bind_apply]
  by_cases hrest : a.rest = []
  · have hcurrent := TokenStream.current_of_nil hrest
    rw [hcurrent] at hquiet ⊢
    exact hend _ (hab.current_of_nil hrest) a b hab ⟨ha, hrest⟩ hquiet
  · obtain ⟨hcurrent, heof, -⟩ := hab.current hrest
    rw [hcurrent]
    exact hsame _ heof a b hab ⟨ha, rfl⟩ hquiet

/-- A parser that does the same whether a text ends or a function definition comes. -/
theorem tracks_peek (hsame : ∀ l, Tracks more (fun s => P s ∧ s.current.lexeme = l) (f l) (g l) Q)
    (hfn : g .fnWord = g .eof) : Tracks more P (peek >>= f) (peek >>= g) Q := by
  refine tracks_peek_or (fun l _ => hsame l) fun l hl => ?_
  have heof : g l = g .eof := by
    rcases hl with rfl | rfl
    · rfl
    · exact hfn
  rw [heof]
  exact (hsame .eof).mono (fun s h => ⟨h.1, TokenStream.current_of_nil h.2⟩) fun _ _ _ h => h

theorem tracks_peekSecond (hP : ∀ s, P s → s.rest ≠ [])
    (hsame : ∀ l, Tracks more (fun s => P s ∧ s.second.lexeme = l) (f l) (g l) Q)
    (hfn : g .fnWord = g .eof) : Tracks more P (peekSecond >>= f) (peekSecond >>= g) Q := by
  intro a b hab ha hquiet
  show Abreast more (f a.second.lexeme a).2 (g b.second.lexeme b).2 ∧
    Q (f a.second.lexeme a).1 (g b.second.lexeme b).1 (f a.second.lexeme a).2
  have hsecond : g b.second.lexeme = g a.second.lexeme := by
    rcases hab.second with hsecond | ⟨hsecond, hsecond'⟩ | hnil
    · rw [hsecond]
    · rw [hsecond, hsecond', hfn]
    · exact absurd hnil (hP a ha)
  rw [hsecond]
  exact hsame _ a b hab ⟨ha, rfl⟩ hquiet

end

section

variable {f : Bool → Parser α} {g : Bool → Parser β}

theorem tracks_afterDedent (hP : ∀ s, P s → ∃ t, t ∈ s.previous?)
    (h : ∀ found, Tracks more P (f found) (g found) Q) :
    Tracks more P (afterDedent >>= f) (afterDedent >>= g) Q := by
  intro a b hab ha hquiet
  obtain ⟨t, ht⟩ := hP a ha
  obtain ⟨t', ht', hlexeme⟩ := hab.previous t ht
  have hsame : (b.previous?.map Token.lexeme == some .dedent) =
      (a.previous?.map Token.lexeme == some .dedent) := by
    rw [Option.mem_def.1 ht, Option.mem_def.1 ht', Option.map_some, Option.map_some, hlexeme]
  show Abreast more _ (g (b.previous?.map Token.lexeme == some .dedent) b).2 ∧
    Q _ (g (b.previous?.map Token.lexeme == some .dedent) b).1 _
  rw [hsame]
  exact h _ a b hab ha hquiet

/-- Where the first stream is at its end, the last line of both has been read. -/
theorem tracks_afterDedent_of_nil
    (hP : ∀ s, P s → s.rest = [] ∧ ∃ t ∈ s.previous?, t.lexeme ≠ .newline)
    (h : ∀ found, Tracks more P (f found) (g true) Q) :
    Tracks more P (afterDedent >>= f) (afterDedent >>= g) Q := by
  intro a b hab ha hquiet
  obtain ⟨hrest, hprevious⟩ := hP a ha
  show Abreast more _ (g (b.previous?.map Token.lexeme == some .dedent) b).2 ∧
    Q _ (g (b.previous?.map Token.lexeme == some .dedent) b).1 _
  rw [hab.previous_dedent hrest hprevious]
  exact h _ a b hab ha hquiet

end

section

variable {f : Span → Parser α} {g : Span → Parser β}

theorem tracks_currentSpan (h : ∀ span span', span.IsPlace → span'.IsPlace →
    Tracks more P (f span) (g span') Q) :
    Tracks more P (currentSpan >>= f) (currentSpan >>= g) Q :=
  fun a b hab ha hquiet =>
    h _ _ hab.placed.1.current hab.placed.2.current a b hab ha hquiet

theorem tracks_spanFrom {start start' : Span} (hstart : start.IsPlace) (hstart' : start'.IsPlace)
    (h : ∀ span span', span.IsPlace → span'.IsPlace → Tracks more P (f span) (g span') Q) :
    Tracks more P (spanFrom start >>= f) (spanFrom start' >>= g) Q :=
  fun a b hab ha hquiet => h _ _ (hstart.merge hab.placed.1.previousSpan)
    (hstart'.merge hab.placed.2.previousSpan) a b hab ha hquiet

end

/-! ## Moving on -/

variable {depth room : Nat}

theorem tracks_advance {l : Lexeme} (hl : l ≠ .eof) :
    Tracks more (fun s => P s ∧ s.current.lexeme = l) advance advance
      fun _ _ => After P l := by
  rintro a b hab ⟨ha, rfl⟩ -
  have hrest := TokenStream.rest_ne_nil hl
  exact ⟨hab.advance hrest, a, ha, hrest, rfl, rfl⟩

theorem tracks_eat {l : Lexeme} (heof : l ≠ .eof) (hfn : l ≠ .fnWord) :
    Tracks more P (eat l) (eat l) fun found found' s =>
      found' = found ∧ if found then After P l s else P s ∧ s.current.lexeme ≠ l := by
  refine tracks_peek (fun found => ?_) (by simp [heof.symm, hfn.symm])
  by_cases hfound : found = l
  · subst hfound
    simp only [if_true]
    exact (tracks_advance heof).bind (fun _ => keeps_pure _) fun _ _ => tracks_pure _ _ fun s h =>
      ⟨rfl, by simpa using h⟩
  · simp only [if_neg hfound]
    exact tracks_pure _ _ fun s h => ⟨rfl, by simpa [h.2] using ⟨h.1, hfound⟩⟩

theorem tracks_expect {l : Lexeme} (heof : l ≠ .eof) :
    Tracks more P (expect l) (expect l) fun span span' s =>
      span.IsPlace ∧ span'.IsPlace ∧ After P l s := by
  refine tracks_currentSpan fun span span' hspan hspan' => ?_
  refine tracks_peek_or (fun found _ => ?_) fun _ _ => ?_
  · by_cases hfound : found = l
    · subst hfound
      simp only [if_true]
      exact (tracks_advance heof).bind (fun _ => keeps_pure _) fun _ _ => tracks_pure _ _ fun s h =>
        ⟨hspan, hspan', h⟩
    · simp only [if_neg hfound]
      exact ((blames_complain _).bind fun _ => keeps_pure _).tracks
  · simp only [if_neg heof.symm]
    exact ((blames_complain _).bind fun _ => keeps_pure _).tracks

theorem tracks_expectIdent :
    Tracks more P expectIdent expectIdent fun name name' s =>
      name = name' ∧ After P (.ident name) s := by
  refine tracks_peek_or (fun found _ => ?_) fun _ _ => ?_
  · split
    · exact (tracks_advance (by simp)).bind (fun _ => keeps_pure _) fun _ _ => tracks_pure _ _
        fun s h => ⟨rfl, h⟩
    · exact ((blames_complain _).bind fun _ => keeps_pure _).tracks
  · exact ((blames_complain _).bind fun _ => keeps_pure _).tracks

/-! ## Going round -/

section

variable {step : γ → Parser (γ × Bool)} {step' : δ → Parser (δ × Bool)}

theorem iterate_go {acc : γ} {s : TokenStream} (hgo : (step acc s).1.2 = true)
    (hless : (step acc s).2.rest.length < s.rest.length) :
    iterate step acc s = iterate step (step acc s).1.1 (step acc s).2 := by
  rw [iterate]
  exact dif_pos ⟨hgo, hless⟩

theorem iterate_stop {acc : γ} {s : TokenStream} (hstop : (step acc s).1.2 = false) :
    iterate step acc s = ((step acc s).1.1, (step acc s).2) := by
  rw [iterate]
  exact dif_neg fun h => by simp [hstop] at h

/-- Two loops whose rounds track each other. A round after which the loop goes on has taken
something. -/
theorem tracks_iterate (during : γ → δ → TokenStream → Prop)
    {after : γ → δ → TokenStream → Prop} (hkeeps : ∀ acc, Keeps (step acc))
    (hround : ∀ acc acc' room,
      Tracks more (fun s => during acc acc' s ∧ s.rest.length ≤ room) (step acc) (step' acc')
        fun r r' s => r'.2 = r.2 ∧
          if r.2 then during r.1 r'.1 s ∧ s.rest.length < room else after r.1 r'.1 s)
    (acc : γ) (acc' : δ) :
    Tracks more (during acc acc') (iterate step acc) (iterate step' acc') after := by
  intro a
  induction hlength : a.rest.length using Nat.strongRecOn generalizing acc acc' a with
  | ind n ih =>
  intro b hab ha hquiet
  obtain ⟨hafter, hflag, hpost⟩ := hround acc acc' a.rest.length a b hab ⟨ha, Nat.le_refl _⟩
    (quiet_round hkeeps hquiet)
  cases hgo : (step acc a).1.2 with
  | false =>
    rw [iterate_stop hgo, iterate_stop (hflag.trans hgo)]
    exact ⟨hafter, by simpa [hgo] using hpost⟩
  | true =>
    rw [if_pos hgo] at hpost
    obtain ⟨hduring, hless⟩ := hpost
    have hless' : (step' acc' b).2.rest.length < b.rest.length := by
      rw [hafter.length, hab.length]
      exact Nat.add_lt_add_right hless _
    rw [iterate_go hgo hless] at hquiet ⊢
    rw [iterate_go (hflag.trans hgo) hless']
    exact ih _ (hlength ▸ hless) _ _ _ rfl _ hafter hduring hquiet

end

theorem tracks_skipNewlines (depth room : Nat) :
    Tracks more (Ahead depth room) skipNewlines skipNewlines fun _ _ s =>
      Ahead depth room s ∧ s.current.lexeme ≠ .newline := by
  refine tracks_iterate (fun _ _ => Ahead depth room)
    (fun _ => (keeps_eat _).bind fun _ => keeps_pure _) (fun _ _ n => ?_) () ()
  refine (tracks_eat (by decide) (by decide)).bind (fun _ => keeps_pure _) fun found found' => ?_
  refine tracks_pure _ _ fun s h => ⟨h.1, ?_⟩
  cases found with
  | true =>
    have hroom : After (Ahead depth room) .newline s := h.2.mono fun s h => h.1
    have hn : After (Ahead depth n) .newline s := h.2.mono fun s h => ⟨h.1.1, h.2⟩
    exact ⟨⟨hroom.newline.1, Nat.le_of_lt hroom.newline.2⟩, hn.newline.2⟩
  | false => exact ⟨h.2.1.1, h.2.2⟩

/-! ## Giving a result -/

/-- The parsers track each other wherever they start, take something that does not end in the end of
a line, and their results are related. -/
def Gives (more : List Lexeme) (related : α → β → Prop) (p : Parser α) (q : Parser β) : Prop :=
  ∀ depth room, Tracks more (Ahead depth room) p q fun x y s => related x y ∧ Past depth room s

theorem Gives.bind {related : α → β → Prop} {f : α → Parser γ} {g : β → Parser δ}
    (h : Gives more related p q) (hP : ∀ s, P s → Ahead depth room s)
    (hkeeps : ∀ x, Keeps (f x))
    (hnext : ∀ x y, related x y → Tracks more (Past depth room) (f x) (g y) R) :
    Tracks more P (p >>= f) (q >>= g) R :=
  Tracks.bind ((h depth room).mono hP fun _ _ _ h => h) hkeeps fun x y =>
    Tracks.of_fact (fun _ h => h.1) fun hxy => (hnext x y hxy).mono (fun _ h => h.2) fun _ _ _ h => h

theorem Gives.map {related : α → β → Prop} {related' : γ → δ → Prop} {f : α → γ} {g : β → δ}
    (h : Gives more related p q) (hfg : ∀ x y, related x y → related' (f x) (g y)) :
    Gives more related' (f <$> p) (g <$> q) := by
  intro depth room a b hab ha hquiet
  obtain ⟨hafter, hxy, hpast⟩ := h depth room a b hab ha hquiet
  exact ⟨hafter, hfg _ _ hxy, hpast⟩

/-- Where a text ends, there is nothing to give. -/
theorem Gives.tracks_of_nil {related : α → α → Prop} {p : Parser α} {q' : Parser β}
    (h : Gives more related p p) :
    Tracks more (fun s => Ahead depth room s ∧ s.rest = []) p q' Q := by
  intro a b hab ha hquiet
  have hpast := (h depth 0 a b hab ⟨ha.1.1, by simp [ha.2]⟩ hquiet).2.2
  exact absurd hpast.2.1 (Nat.not_lt_zero _)

theorem Lexeme.ne_eof {l : Lexeme} (h : l.isLayout = false) : l ≠ .eof := by
  rintro rfl
  cases h

theorem gives_expect {l : Lexeme} (hl : l.isLayout = false) :
    Gives more (fun span span' => span.IsPlace ∧ span'.IsPlace) (expect l) (expect l) :=
  fun _ _ => (tracks_expect (Lexeme.ne_eof hl)).mono (fun _ h => h)
    fun _ _ _ h => ⟨⟨h.1, h.2.1⟩, h.2.2.past hl⟩

theorem gives_expectIdent : Gives more Eq expectIdent expectIdent :=
  fun _ _ => tracks_expectIdent.mono (fun _ h => h) fun _ _ _ h => ⟨h.1, h.2.past rfl⟩

/-- A token that is known to come is stepped over. -/
theorem tracks_step {l : Lexeme} {f : Unit → Parser γ} {g : Unit → Parser δ}
    (hl : l.isLayout = false) (hP : ∀ s, P s → Ahead depth room s ∧ s.current.lexeme = l)
    (hkeeps : Keeps (f ())) (hnext : Tracks more (Past depth room) (f ()) (g ()) R) :
    Tracks more P (advance >>= f) (advance >>= g) R :=
  Tracks.bind ((tracks_advance (Lexeme.ne_eof hl)).mono hP fun _ _ _ h => h)
    (fun _ => hkeeps) fun _ _ => hnext.mono (fun _ h => h.past hl) fun _ _ _ h => h

/-! ## Lists -/

section

variable {element : Parser γ} {element' : Parser δ} {related : γ → δ → Prop}

theorem forall₂_push {xs : Array γ} {xs' : Array δ} {x : γ} {x' : δ}
    (h : List.Forall₂ related xs.toList xs'.toList) (hx : related x x') :
    List.Forall₂ related (xs.push x).toList (xs'.push x').toList := by
  simpa using List.rel_append h (.cons hx .nil)

theorem gives_commaSeparated (hkeeps : Keeps element)
    (helement : Gives more related element element') :
    Gives more (List.Forall₂ related) (commaSeparated element) (commaSeparated element') := by
  intro depth room
  refine Tracks.bind (Q := fun xs xs' s => List.Forall₂ related xs.toList xs'.toList ∧
    Past depth room s) ?_ (fun _ => keeps_pure _) fun xs xs' => tracks_pure _ _ fun s h => h
  refine (tracks_iterate
    (fun xs xs' s => List.Forall₂ related xs.toList xs'.toList ∧ Ahead depth room s)
    (fun _ => hkeeps.bind fun _ => (keeps_eat _).bind fun _ => keeps_pure _)
    (fun xs xs' n => ?_) #[] #[]).mono (fun s h => ⟨.nil, h⟩) fun _ _ _ h => h
  refine Tracks.of_fact (fun s h => h.1.1) fun hxs => ?_
  have hahead : ∀ s : TokenStream, Ahead depth room s → s.rest.length ≤ n →
      Ahead depth (min room n) s :=
    fun s h hn => ⟨h.1, Nat.le_min.2 ⟨h.2, hn⟩⟩
  refine helement.bind (fun s h => hahead s h.1.2 h.2)
    (fun _ => (keeps_eat _).bind fun _ => keeps_pure _) fun x x' hx => ?_
  refine (tracks_eat (by decide) (by decide)).bind (fun _ => keeps_pure _) fun found found' => ?_
  refine tracks_pure _ _ fun s h => ⟨h.1, ?_⟩
  have hpush := forall₂_push hxs hx
  cases found with
  | true =>
    have hpast := (h.2.mono fun s h => h.ahead).past rfl
    exact ⟨⟨hpush, (hpast.mono (Nat.min_le_left ..)).ahead⟩,
      (hpast.mono (Nat.min_le_right ..)).2.1⟩
  | false => exact ⟨hpush, h.2.1.mono (Nat.min_le_left ..)⟩

theorem gives_parenthesised (hkeeps : Keeps element)
    (helement : Gives more related element element') :
    Gives more (fun r r' => r.1.IsPlace ∧ r'.1.IsPlace ∧ List.Forall₂ related r.2 r'.2)
      (parenthesised element) (parenthesised element') := by
  intro depth room
  have hclose : ∀ (start : Span) (xs : List γ),
      Keeps (expect .rightParen >>= fun _ => pure (start, xs)) :=
    fun _ _ => (keeps_expect _).bind fun _ => keeps_pure _
  refine (gives_expect rfl).bind (fun _ h => h) (fun start => keeps_peek.bind fun _ =>
    .ite _ ((keeps_pure _).bind fun _ => hclose _ _)
      ((keeps_commaSeparated hkeeps).bind fun _ => hclose _ _)) fun start start' hstart => ?_
  have hend : ∀ xs xs', List.Forall₂ related xs xs' → Tracks more (Past depth room)
      (expect .rightParen >>= fun _ => pure (start, xs))
      (expect .rightParen >>= fun _ => pure (start', xs'))
      fun r r' s => (r.1.IsPlace ∧ r'.1.IsPlace ∧ List.Forall₂ related r.2 r'.2) ∧
        Past depth room s :=
    fun xs xs' hxs => (gives_expect rfl).bind (fun _ => Past.ahead) (fun _ => keeps_pure _)
      fun _ _ _ => tracks_pure _ _ fun s h => ⟨⟨hstart.1, hstart.2, hxs⟩, h⟩
  refine tracks_peek (fun found => ?_) (by simp)
  by_cases hfound : found = .rightParen
  · simp only [if_pos hfound]
    exact (hend [] [] .nil).mono (fun s h => h.1) fun _ _ _ h => h
  · simp only [if_neg hfound]
    exact (gives_commaSeparated hkeeps helement).bind (fun s h => h.1.ahead) (hclose _) hend

end

end Parser

end Abacus
