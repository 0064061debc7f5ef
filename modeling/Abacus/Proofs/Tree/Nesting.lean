import Abacus.Proofs.Tree.Abreast
import Abacus.Proofs.Tree.Spans
import Abacus.Proofs.Tree.Storing

/-!
# The spans of what is read are nested

A tree starts at a token and is complete when that token and all of the tree have been read. As long as
nothing is complained about, every tree that is read starts behind what was read before it, and ends
where the reading has come.

* `Parser.Leads` — what holds of a stream after a parser has read from it;
* `Parser.Onward`, `Parser.Settles` — the parser only reads on; the parser reads a tree with nested spans;
* `Parser.settles_expression`, `Parser.settles_body`, `Parser.leads_program` — all that is read;
* `Arena.SpansNest` — the same of stored nodes;
* `parse_postOrder` — the nodes of a text are stored in post-order, and their spans are nested.
-/

namespace Abacus

namespace Parser

open TokenStream (Within Before)

variable {α β γ : Type} {text : String} {P P' : TokenStream → Prop} {p : Parser α}
  {Q Q' : α → TokenStream → Prop} {R : β → TokenStream → Prop}

/-- The parser takes back no complaints. From an orderly stream where `P` holds, if nothing is
complained about, it leaves an orderly stream where `Q` holds of what it gives. -/
structure Leads (text : String) (P : TokenStream → Prop) (p : Parser α) (Q : α → TokenStream → Prop) :
    Prop where
  keeps : Keeps p
  leads : ∀ s, s.Orderly text → P s → (p s).2.complaints = #[] →
    (p s).2.Orderly text ∧ Q (p s).1 (p s).2

/-! ## Putting parsers together -/

theorem Leads.mono (h : Leads text P p Q) (hP : ∀ s, P' s → P s) (hQ : ∀ x s, Q x s → Q' x s) :
    Leads text P' p Q' where
  keeps := h.keeps
  leads s hs hbefore hquiet := by
    obtain ⟨hs', hafter⟩ := h.leads s hs (hP s hbefore) hquiet
    exact ⟨hs', hQ _ _ hafter⟩

theorem leads_pure (a : α) (h : ∀ s, P s → Q a s) : Leads text P (pure a) Q :=
  ⟨keeps_pure a, fun s hs hbefore _ => ⟨hs, h s hbefore⟩⟩

theorem Leads.bind {f : α → Parser β} (h : Leads text P p Q) (hnext : ∀ a, Leads text (Q a) (f a) R) :
    Leads text P (p >>= f) R where
  keeps := h.keeps.bind fun a => (hnext a).keeps
  leads s hs hbefore hquiet := by
    obtain ⟨hs', hafter⟩ := h.leads s hs hbefore ((hnext _).keeps _ hquiet)
    exact (hnext _).leads _ hs' hafter hquiet

/-- Something about what the first parser gives is known. -/
theorem Leads.bind_eq {x : γ} {g : α → γ} {f : α → Parser β} {R : γ → β → TokenStream → Prop}
    (h : Leads text P p fun a s => g a = x ∧ Q a s)
    (hnext : ∀ a, Leads text (Q a) (f a) (R (g a))) : Leads text P (p >>= f) (R x) :=
  h.bind fun a => ⟨(hnext a).keeps, by
    rintro s hs ⟨rfl, hbefore⟩ hquiet
    exact (hnext a).leads s hs hbefore hquiet⟩

/-- One of two things holds before. -/
theorem Leads.or (h : Leads text P p Q) (h' : Leads text P' p Q) :
    Leads text (fun s => P s ∨ P' s) p Q :=
  ⟨h.keeps, fun s hs hbefore hquiet =>
    hbefore.elim (fun hP => h.leads s hs hP hquiet) fun hP' => h'.leads s hs hP' hquiet⟩

theorem Leads.map {f : α → β} (h : Leads text P p fun a => R (f a)) : Leads text P (f <$> p) R :=
  ⟨h.keeps.map f, h.leads⟩

theorem Leads.ite (c : Prop) [Decidable c] {q : Parser α} (hp : Leads text P p Q)
    (hq : Leads text P q Q) : Leads text P (if c then p else q) Q := by
  split
  · exact hp
  · exact hq

/-- Where a parser complains, nothing has to be shown. -/
theorem Blames.leads (h : Blames p) : Leads text P p Q :=
  ⟨fun s hquiet => absurd hquiet (h s), fun s _ _ hquiet => absurd hquiet (h s)⟩

/-- What each round of a loop keeps holds at the end. -/
theorem leads_iterate {step : γ → Parser (γ × Bool)} {H : γ → TokenStream → Prop}
    (hround : ∀ acc, Leads text (H acc) (step acc) fun r => H r.1) (acc : γ) :
    Leads text (H acc) (iterate step acc) H := by
  have hkeeps := keeps_iterate fun acc => (hround acc).keeps
  refine ⟨hkeeps acc, fun s => ?_⟩
  fun_induction iterate step acc s with
  | case1 acc s result h ih =>
    intro hs hbefore hquiet
    obtain ⟨hs', hafter⟩ := (hround acc).leads s hs hbefore (hkeeps _ _ hquiet)
    exact ih hs' hafter hquiet
  | case2 acc s result h => exact (hround acc).leads s

theorem leads_peek : Leads text P peek fun l s => P s ∧ s.current.lexeme = l :=
  ⟨keeps_peek, fun _ hs hbefore _ => ⟨hs, hbefore, rfl⟩⟩

/-! ## Reading on -/

/-- The parser reads on, and leaves nothing that has to be put into a tree. -/
def Onward (text : String) (p : Parser α) : Prop :=
  ∀ start high, Leads text (Within start high) p fun _ => Within start high

theorem onward_pure (a : α) : Onward text (pure a) := fun _ _ => leads_pure a fun _ h => h

theorem Onward.bind {f : α → Parser β} (h : Onward text p) (hnext : ∀ a, Onward text (f a)) :
    Onward text (p >>= f) := fun start high => (h start high).bind fun a => hnext a start high

theorem Onward.ite (c : Prop) [Decidable c] {q : Parser α} (hp : Onward text p) (hq : Onward text q) :
    Onward text (if c then p else q) := fun start high => .ite c (hp start high) (hq start high)

theorem Blames.onward (h : Blames p) : Onward text p := fun _ _ => h.leads

theorem onward_iterate {step : γ → Parser (γ × Bool)} (hround : ∀ acc, Onward text (step acc)) (acc : γ) :
    Onward text (iterate step acc) := fun start high => leads_iterate (fun acc => hround acc start high) acc

theorem onward_peek : Onward text peek :=
  fun _ _ => ⟨keeps_peek, fun _ hs hbefore _ => ⟨hs, hbefore⟩⟩

theorem onward_peekSecond : Onward text peekSecond :=
  fun _ _ => ⟨keeps_peekSecond, fun _ hs hbefore _ => ⟨hs, hbefore⟩⟩

theorem onward_afterDedent : Onward text afterDedent :=
  fun _ _ => ⟨keeps_afterDedent, fun _ hs hbefore _ => ⟨hs, hbefore⟩⟩

theorem onward_currentSpan : Onward text currentSpan :=
  fun _ _ => ⟨keeps_currentSpan, fun _ hs hbefore _ => ⟨hs, hbefore⟩⟩

theorem onward_advance : Onward text advance :=
  fun _ _ => ⟨keeps_advance, fun _ hs hbefore _ => ⟨hs.advance, hbefore.advance hs⟩⟩

theorem onward_eat (l : Lexeme) : Onward text (eat l) :=
  onward_peek.bind fun _ => .ite _ (onward_advance.bind fun _ => onward_pure _) (onward_pure _)

theorem onward_expect (l : Lexeme) : Onward text (expect l) :=
  onward_currentSpan.bind fun _ => onward_peek.bind fun _ => .ite _
    (onward_advance.bind fun _ => onward_pure _) ((blames_complain _).bind fun _ => keeps_pure _).onward

theorem onward_expectIdent : Onward text expectIdent := by
  refine onward_peek.bind fun found => ?_
  split
  · exact onward_advance.bind fun _ => onward_pure _
  · exact ((blames_complain _).bind fun _ => keeps_pure _).onward

theorem onward_skipNewlines : Onward text skipNewlines :=
  onward_iterate (fun _ => (onward_eat _).bind fun _ => onward_pure _) ()

theorem onward_parenthesised (hp : Onward text p) : Onward text (parenthesised p) := by
  have hclose : ∀ (start : Span) (elements : List α),
      Onward text (expect .rightParen >>= fun _ => pure (start, elements)) :=
    fun _ _ => (onward_expect _).bind fun _ => onward_pure _
  have hsome : Onward text (commaSeparated p) :=
    (onward_iterate (fun _ => hp.bind fun _ => (onward_eat _).bind fun _ => onward_pure _) #[]).bind
      fun _ => onward_pure _
  exact (onward_expect _).bind fun _ => onward_peek.bind fun _ =>
    .ite _ ((onward_pure _).bind fun _ => hclose _ _) (hsome.bind fun _ => hclose _ _)

theorem onward_endStatement : Onward text endStatement :=
  (onward_eat _).bind fun _ => .ite _ (onward_pure _) <| onward_peek.bind fun _ =>
    onward_afterDedent.bind fun _ => .ite _ (onward_pure _) ((blames_complain _).bind fun _ =>
      keeps_skipLine.bind fun _ => (keeps_eat _).bind fun _ => keeps_pure _).onward

theorem onward_findElse : Onward text findElse := by
  refine onward_peek.bind fun found => ?_
  split
  · exact onward_pure _
  · exact onward_peekSecond.bind fun _ => .ite _ (onward_advance.bind fun _ => onward_pure _)
      (onward_pure _)
  · exact onward_pure _

/-! ## Reading trees -/

/-- Behind `high` the token at `start` has been read, and then the trees, one behind the other. -/
structure Reached (text : String) (start : Span) (high : Nat) (ts : List Tree) (s : TokenStream) :
    Prop where
  standsIn : start.StandsIn text
  behind : high ≤ start.start
  read : ∃ reach, Siblings text start.start ts reach ∧ s.Within start reach

/-- The parser reads a tree, wherever the reading has come. -/
def Settles (text : String) (p : Parser Tree) : Prop :=
  ∀ start high, Leads text (Before start high) p fun t => Reached text start high [t]

section

variable {start : Span} {high : Nat} {ts : List Tree} {shape : Shape Tree} {q inner : Parser Tree}

theorem Onward.reached (h : Onward text p) :
    Leads text (Reached text start high ts) p fun _ => Reached text start high ts where
  keeps := (h start high).keeps
  leads s hs hbefore hquiet := by
    obtain ⟨hstart, hbehind, reach, hsiblings, hwithin⟩ := hbefore
    obtain ⟨hs', hafter⟩ := (h start reach).leads s hs hwithin hquiet
    exact ⟨hs', hstart, hbehind, reach, hsiblings, hafter⟩

/-- One more tree is read. -/
theorem Settles.push (h : Settles text q) : Leads text (Reached text start high ts) q
    fun t => Reached text start high (ts ++ [t]) where
  keeps := (h start high).keeps
  leads s hs hbefore hquiet := by
    obtain ⟨hstart, hbehind, reach, hsiblings, hwithin⟩ := hbefore
    obtain ⟨hs', -, hreach, reach', htree, hafter⟩ := (h _ _).leads s hs hwithin.before hquiet
    obtain ⟨hle, hle'⟩ := hwithin.current_le hs
    obtain ⟨hfirst, hlast⟩ := htree.within _ List.mem_cons_self
    exact ⟨hs', hstart, hbehind, reach', hsiblings.push (htree.nested _ List.mem_cons_self)
      (hreach.trans hfirst) hlast, hafter.outer hle hle'⟩

theorem Reached.nil {s : TokenStream} (hstart : start.StandsIn text) (hbehind : high ≤ start.start)
    (h : s.Within start start.stop) : Reached text start high [] s :=
  ⟨hstart, hbehind, start.stop, .nil hstart.start_le, h⟩

/-- The first token of a tree is read. -/
theorem leads_first {l : Lexeme} (hdedent : l ≠ .dedent) (heof : l ≠ .eof) :
    Leads text (fun s => s.Before start high ∧ s.current.lexeme = l) advance
      fun _ => Reached text start high [] where
  keeps := keeps_advance
  leads := by
    rintro s hs ⟨hbefore, rfl⟩ -
    have hstart := hs.current
    rw [hbefore.current] at hstart
    exact ⟨hs.advance, .nil hstart (hbefore.high_le hs hdedent)
      (hbefore.advance (TokenStream.rest_ne_nil heof))⟩

/-- The next token is where a tree starts. -/
theorem leads_currentSpan {P : Span → TokenStream → Prop}
    (h : ∀ s, P start s → s.current.span = start) :
    Leads text (P start) currentSpan fun span s => span = start ∧ P span s where
  keeps := keeps_currentSpan
  leads s hs hbefore _ := by
    obtain rfl := h s hbefore
    exact ⟨hs, rfl, hbefore⟩

/-- The first token of a tree is read, if it is `l`. -/
theorem leads_eat_first {l : Lexeme} (hdedent : l ≠ .dedent) (heof : l ≠ .eof)
    (h : ∀ s, P s → s.Before start high) : Leads text P (eat l) fun found s =>
      if found then Reached text start high [] s else P s := by
  refine leads_peek.bind fun found => ?_
  by_cases hfound : found = l
  · subst hfound
    rw [if_pos rfl]
    exact ((leads_first hdedent heof).mono (fun s hs => ⟨h s hs.1, hs.2⟩) fun _ _ h => h).bind
      fun _ => leads_pure _ fun _ h => h
  · rw [if_neg hfound]
    exact leads_pure _ fun _ h => h.1

/-- The first token of a tree is read, and it is `l`. -/
theorem leads_expect_first {l : Lexeme} (hdedent : l ≠ .dedent) (heof : l ≠ .eof) :
    Leads text (Before start high) (expect l) fun span s =>
      span = start ∧ Reached text span high [] s := by
  refine (leads_currentSpan (P := fun start s => s.Before start high) fun _ h => h.current).bind_eq
    (g := id) (R := fun start span s => span = start ∧ Reached text span high [] s)
    fun span => leads_peek.bind fun found => ?_
  by_cases hfound : found = l
  · subst hfound
    rw [if_pos rfl]
    exact (leads_first hdedent heof).bind fun _ => leads_pure _ fun _ h => ⟨rfl, h⟩
  · rw [if_neg hfound]
    exact ((blames_complain _).bind fun _ => keeps_pure _).leads

/-! ### Nodes -/

/-- What has been read is put into a node. -/
theorem leads_node (shape : Shape Tree) : Leads text (Reached text start high shape.children)
    (spanFrom start >>= fun span => pure (Tree.node span shape))
    fun t => Reached text start high [t] where
  keeps := keeps_node start shape
  leads s hs hbefore _ := by
    obtain ⟨hstart, hbehind, reach, hsiblings, hwithin⟩ := hbefore
    obtain ⟨hspan, hfirst, hlast, hafter⟩ := hwithin.merge hs hstart
    have hnode := hsiblings.node hspan (Nat.le_of_eq hfirst) hlast
    exact ⟨hs, hstart, hbehind, _, Siblings.push (.nil (Nat.le_refl _)) hnode (Nat.le_of_eq hfirst.symm)
      (Nat.le_refl _), hafter⟩

/-- A token is a tree of its own. -/
theorem Reached.leaf {s : TokenStream} (h : Reached text start high [] s) (hshape : shape.children = []) :
    Reached text start high [.node start shape] s := by
  obtain ⟨hstart, hbehind, reach, -, t, ht, hfirst, hlast, -⟩ := h
  have hnil : Siblings text start.start shape.children start.stop := by
    rw [hshape]
    exact .nil hstart.start_le
  have hnode := hnil.node hstart (Nat.le_refl _) (Nat.le_refl _)
  exact ⟨hstart, hbehind, start.stop,
    Siblings.push (.nil (Nat.le_refl _)) hnode (Nat.le_refl _) (Nat.le_refl _), t, ht, hfirst, hlast, hlast⟩

/-- A tree made of what has been read. -/
theorem Reached.single {s : TokenStream} {t : Tree} {reach : Nat} (h : Reached text start high ts s)
    (ht : t.Nested text) (hfirst : start.start ≤ t.span.start) (hlast : t.span.stop ≤ reach)
    (hreach : s.Within start reach) : Reached text start high [t] s :=
  ⟨h.standsIn, h.behind, reach, Siblings.push (.nil (Nat.le_refl _)) ht hfirst hlast, hreach⟩

/-- A minus and its operand. -/
theorem Reached.negate {s : TokenStream} {t : Tree} (h : Reached text start high [t] s) :
    Reached text start high [.node (start.merge t.span) (.negate t)] s := by
  obtain ⟨reach, hsiblings, u, hu, hfirst, hlast, hreach⟩ := h.read
  have ht := hsiblings.nested _ List.mem_cons_self
  obtain ⟨hlow, hhigh⟩ := hsiblings.within _ List.mem_cons_self
  have hchildren := Siblings.push (.nil (Nat.le_refl _)) ht hlow (Nat.le_refl _)
  refine h.single (hchildren.node (h.standsIn.merge ht.standsIn hlow) (Nat.min_le_left _ _)
    (Nat.le_max_right _ _)) (Nat.le_of_eq (Nat.min_eq_left hlow).symm) ?_ ⟨u, hu, hfirst, hlast, Nat.le_refl _⟩
  exact Nat.max_le.2 ⟨hlast, hhigh.trans hreach⟩

/-- An operator between two operands. -/
theorem Reached.infixOp {s : TokenStream} {left right : Tree} (op : InfixOp)
    (h : Reached text start high [left, right] s) :
    Reached text start high [.node (left.span.merge right.span) (.infixOp op left right)] s := by
  obtain ⟨reach, hsiblings, hwithin⟩ := h.read
  obtain ⟨hleft, hright⟩ : left.Nested text ∧ right.Nested text := by simpa using hsiblings.nested
  obtain ⟨⟨hlow, hhigh⟩, -, hhigh'⟩ : (start.start ≤ left.span.start ∧ left.span.stop ≤ reach) ∧
      start.start ≤ right.span.start ∧ right.span.stop ≤ reach := by simpa using hsiblings.within
  have hordered : left.span.stop ≤ right.span.start := by simpa using hsiblings.ordered
  have hle : left.span.start ≤ right.span.start := hleft.standsIn.start_le.trans hordered
  have hchildren := Siblings.push (Siblings.push (.nil (Nat.le_refl _)) hleft (Nat.le_refl _)
    (Nat.le_refl _)) hright hordered (Nat.le_refl _)
  refine h.single (hchildren.node (hleft.standsIn.merge hright.standsIn hle) (Nat.min_le_left _ _)
    (Nat.le_max_right _ _)) ?_ (Nat.max_le.2 ⟨hhigh, hhigh'⟩) hwithin
  exact Nat.le_min.2 ⟨hlow, hlow.trans hle⟩

/-! ## Expressions -/

theorem leads_commaSeparated (hinner : Settles text inner) :
    Leads text (Reached text start high []) (commaSeparated inner) fun ts => Reached text start high ts := by
  refine (leads_iterate (H := fun ts s => Reached text start high ts.toList s)
    (fun ts => hinner.push.bind fun t => (onward_eat _).reached.bind fun _ => ?_) #[]).bind
      fun ts => leads_pure _ fun _ h => h
  exact leads_pure _ fun s h => by rwa [Array.toList_push]

/-- Arguments and the parentheses around them. -/
theorem leads_parenthesised (hinner : Settles text inner) :
    Leads text (Before start high) (parenthesised inner) fun r s =>
      r.1 = start ∧ Reached text r.1 high r.2 s := by
  refine (leads_expect_first (l := .leftParen) nofun nofun).bind_eq (g := id)
    (R := fun start (r : Span × List Tree) s => r.1 = start ∧ Reached text r.1 high r.2 s)
    fun opening => ?_
  have hclose : ∀ ts, Leads text (Reached text opening high ts)
      (expect .rightParen >>= fun _ => pure (opening, ts)) fun r s =>
        r.1 = opening ∧ Reached text r.1 high r.2 s :=
    fun ts => (onward_expect _).reached.bind fun _ => leads_pure _ fun _ h => ⟨rfl, h⟩
  exact onward_peek.reached.bind fun _ =>
    .ite _ ((leads_pure [] fun _ h => h).bind hclose) ((leads_commaSeparated hinner).bind hclose)

/-- The arguments of a call are a tree of their own. -/
theorem settles_arguments (hinner : Settles text inner) :
    Settles text (parenthesised inner >>= fun r => spanFrom r.1 >>= fun span =>
      pure (.node span (.list r.2))) :=
  fun _ high => (leads_parenthesised hinner).bind_eq (g := Prod.fst)
    (R := fun start t s => Reached text start high [t] s) fun r => leads_node (.list r.2)

theorem leads_callOf (hinner : Settles text inner) (name : String) :
    Leads text (Reached text start high []) (callOf inner name start)
      fun t => Reached text start high [t] := by
  have hcall : callOf inner name start = ((parenthesised inner >>= fun r => spanFrom r.1 >>= fun span =>
      pure (Tree.node span (.list r.2))) >>= fun arguments => spanFrom start >>= fun span =>
        pure (.node span (.call name arguments))) := rfl
  rw [hcall]
  exact (settles_arguments hinner).push.bind fun arguments => leads_node (.call name arguments)

theorem settles_primary (hinner : Settles text inner) : Settles text (primary inner) := by
  intro start high
  refine (leads_currentSpan (P := fun start s => s.Before start high) fun _ h => h.current).bind_eq
    (g := id) (R := fun start t s => Reached text start high [t] s) fun start => leads_peek.bind fun found => ?_
  cases found with
  | integer | floating =>
    exact (leads_first (by simp) (by simp)).bind fun _ => leads_pure _ fun _ h => h.leaf rfl
  | ident name =>
    exact (leads_first (by simp) (by simp)).bind fun _ => onward_peek.reached.bind fun _ =>
      .ite _ (leads_callOf hinner name) (leads_pure _ fun _ h => h.leaf rfl)
  | leftParen =>
    exact (leads_first (by simp) (by simp)).bind fun _ => hinner.push.bind fun t =>
      (onward_expect _).reached.bind fun _ => leads_pure _ fun _ h => h
  | _ => exact (blames_unexpected _ start).leads

theorem settles_operand {expression' : Nat → Parser Tree} (h : ∀ least, Settles text (expression' least)) :
    Settles text (operand expression') := by
  intro start high
  refine leads_peek.bind fun found => ?_
  by_cases hminus : found = .minus
  · subst hminus
    rw [if_pos rfl]
    exact (leads_currentSpan (P := fun start s => s.Before start high ∧ s.current.lexeme = .minus)
      fun _ h => h.1.current).bind_eq (g := id) (R := fun start t s => Reached text start high [t] s)
      fun _ => (leads_first (by simp) (by simp)).bind fun _ => (h _).push.bind fun _ => leads_pure _ fun _ h => h.negate
  · rw [if_neg hminus]
    exact (settles_primary (h 0) start high).mono (fun _ h => h.1) fun _ _ h => h

theorem leads_infixStep {expression' : Nat → Parser Tree} (h : ∀ least, Settles text (expression' least))
    (least : Nat) (acc : Tree × Bool) : Leads text (Reached text start high [acc.1])
      (infixStep expression' least acc) fun r => Reached text start high [r.1.1] := by
  refine onward_peek.reached.bind fun found => ?_
  split
  · exact leads_pure _ fun _ h => h
  · next op _ =>
    have hgo : Leads text (Reached text start high [acc.1]) (do
        advance
        let right ← expression' op.power.2
        let tree := Tree.node (acc.1.span.merge right.span) (.infixOp op acc.1 right)
        return ((tree, op.isComparison), true)) fun r => Reached text start high [r.1.1] :=
      onward_advance.reached.bind fun _ => (h _).push.bind fun _ => leads_pure _ fun _ h => h.infixOp op
    exact .ite _ (leads_pure _ fun _ h => h)
      (.ite _ ((blames_complainWithHelp _ _).bind fun _ => hgo.keeps).leads hgo)

/-- An expression is a tree with nested spans. -/
theorem settles_expression (room least : Nat) : Settles text (expression room least) := by
  induction room generalizing least with
  | zero =>
    exact fun _ _ => ((blames_complainWithHelp _ _).bind fun _ => keeps_currentSpan.bind fun _ =>
      keeps_pure _).leads
  | succ room ih =>
    intro start high
    refine (settles_operand ih start high).bind fun first =>
      (leads_iterate (H := fun acc s => Reached text start high [acc.1] s)
        (leads_infixStep ih least) (first, false)).bind fun acc => ?_
    exact leads_pure acc.1 fun _ h => h

/-! ## Statements -/

variable {expr body' item : Parser Tree}

theorem settles_fnDef (hbody : Settles text body') : Settles text (fnDef body') :=
  fun _ _ => (leads_expect_first (l := .fnWord) nofun nofun).bind_eq (g := id)
    (R := fun start t s => Reached text start _ [t] s) fun _ => onward_expectIdent.reached.bind fun name =>
      (onward_parenthesised onward_expectIdent).reached.bind fun r => hbody.push.bind fun inner =>
        leads_node (.fnDef name r.2 inner)

theorem settles_ifElse (hexpr : Settles text expr) (hbody : Settles text body') :
    Settles text (ifElse expr body') :=
  fun _ _ => (leads_expect_first (l := .ifWord) nofun nofun).bind_eq (g := id)
    (R := fun start t s => Reached text start _ [t] s) fun _ => hexpr.push.bind fun condition =>
      hbody.push.bind fun thenBody => onward_findElse.reached.bind fun _ => .ite _
        ((onward_expect _).reached.bind fun _ => (hbody.push.map (f := some)
          (R := fun elseBody s => Reached text _ _ (condition :: thenBody :: elseBody.toList) s)).bind
            fun elseBody => leads_node (.ifElse condition thenBody elseBody))
        ((leads_pure none fun _ h => h).bind fun elseBody =>
          leads_node (.ifElse condition thenBody elseBody))

theorem settles_forLoop (hexpr : Settles text expr) (hbody : Settles text body') :
    Settles text (forLoop expr body') :=
  fun _ _ => (leads_expect_first (l := .forWord) nofun nofun).bind_eq (g := id)
    (R := fun start t s => Reached text start _ [t] s) fun _ => onward_expectIdent.reached.bind fun index =>
      (onward_expect _).reached.bind fun _ => hexpr.push.bind fun bound => hbody.push.bind fun inner =>
        leads_node (.forLoop index bound inner)

/-- A statement whose first word is known to come. -/
theorem leads_word {l : Lexeme} {rest : Span → Parser Tree} (hdedent : l ≠ .dedent) (heof : l ≠ .eof)
    (h : ∀ start, Leads text (Reached text start high []) (rest start)
      fun t => Reached text start high [t]) :
    Leads text (fun s => s.Before start high ∧ s.current.lexeme = l)
      (currentSpan >>= fun start => advance >>= fun _ => rest start)
      fun t => Reached text start high [t] :=
  (leads_currentSpan (P := fun start s => s.Before start high ∧ s.current.lexeme = l)
    fun _ h => h.1.current).bind_eq (g := id) (R := fun start t s => Reached text start high [t] s)
    fun start => (leads_first hdedent heof).bind fun _ => h start

theorem leads_letVar (hexpr : Settles text expr) :
    Leads text (fun s => s.Before start high ∧ s.current.lexeme = .letWord) (letVar expr)
      fun t => Reached text start high [t] :=
  leads_word nofun nofun fun _ => onward_expectIdent.reached.bind fun name =>
    (onward_expect _).reached.bind fun _ => hexpr.push.bind fun value =>
      leads_node (.letVar name value)

theorem leads_giveBack (hexpr : Settles text expr) :
    Leads text (fun s => s.Before start high ∧ s.current.lexeme = .returnWord) (giveBack expr)
      fun t => Reached text start high [t] :=
  leads_word nofun nofun fun _ => hexpr.push.bind fun value => leads_node (.giveBack value)

theorem leads_setVar (hexpr : Settles text expr) (name : String) :
    Leads text (fun s => s.Before start high ∧ s.current.lexeme = .ident name) (setVar expr name)
      fun t => Reached text start high [t] :=
  leads_word (by simp) (by simp) fun _ => onward_advance.reached.bind fun _ => hexpr.push.bind fun value =>
    leads_node (.setVar name value)

theorem settles_statement (hexpr : Settles text expr) (hbody : Settles text body') :
    Settles text (statement expr body') := by
  intro start high
  refine leads_peek.bind fun found => ?_
  have hany : ∀ {p : Parser Tree}, Settles text p →
      Leads text (fun s => s.Before start high ∧ s.current.lexeme = found) p
        fun t => Reached text start high [t] :=
    fun hp => (hp start high).mono (fun _ h => h.1) fun _ _ h => h
  split
  · exact leads_letVar hexpr
  · exact leads_giveBack hexpr
  · exact hany (settles_ifElse hexpr hbody)
  · exact hany (settles_forLoop hexpr hbody)
  · exact ((blames_complainWithHelp _ _).bind fun _ => (settles_fnDef hbody start high).keeps).leads
  · next name =>
    have hsecond : Leads text (fun s => s.Before start high ∧ s.current.lexeme = .ident name) peekSecond
        fun _ s => s.Before start high ∧ s.current.lexeme = .ident name :=
      ⟨keeps_peekSecond, fun _ hs hbefore _ => ⟨hs, hbefore⟩⟩
    exact hsecond.bind fun _ => .ite _ (leads_setVar hexpr name) (hany hexpr)
  · exact hany hexpr

/-! ## Bodies -/

/-- The statements of a block are read one behind the other. -/
theorem leads_block (hitem : Settles text item) : Leads text (Reached text start high []) (block item)
    fun ts => Reached text start high ts := by
  refine (leads_iterate (H := fun ts s => Reached text start high ts.toList s) (fun ts => ?_) #[]).bind
    fun ts => leads_pure ts.toList fun _ h => h
  exact onward_skipNewlines.reached.bind fun _ => (onward_eat _).reached.bind fun _ =>
    .ite _ (leads_pure _ fun _ h => h) (onward_peek.reached.bind fun _ => .ite _
      (leads_pure _ fun _ h => h) (hitem.push.bind fun t => onward_endStatement.reached.bind fun _ =>
        leads_pure _ fun _ h => by rwa [Array.toList_push]))

/-- A body is a tree with nested spans. -/
theorem settles_body (room : Nat) : Settles text (body room) := by
  induction room with
  | zero =>
    exact fun _ _ => (Blames.after fun _ => Blames.after fun _ =>
      (blames_complainWithHelp _ _).bind fun _ => keeps_pure _).leads
  | succ room ih =>
    have hexpr : Settles text (expression room 0) := settles_expression room 0
    have hitem := settles_statement hexpr ih
    intro start high
    refine (leads_currentSpan (P := fun start s => s.Before start high) fun _ h => h.current).bind_eq
      (g := id) (R := fun start t s => Reached text start high [t] s) fun start => ?_
    have hblock : Leads text (Reached text start high []) (do
        let _ ← expect .indent
        let items ← block (statement (expression room 0) (body room))
        return Tree.node (← spanFrom start) (.list items)) fun t => Reached text start high [t] :=
      (onward_expect _).reached.bind fun _ => (leads_block hitem).bind fun items =>
        leads_node (.list items)
    -- A body may start with its colon, with the end of a line or with its only statement.
    refine (leads_eat_first (l := .colon) nofun nofun fun _ h => h).bind fun colon => ?_
    cases colon with
    | true =>
      exact (onward_eat _).reached.bind fun _ => .ite _ hblock (hitem.push.bind fun t =>
        (leads_pure [t] fun _ h => h).bind fun items => leads_node (.list items))
    | false =>
      refine (leads_eat_first (l := .newline) nofun nofun fun _ h => h).bind fun line => ?_
      cases line with
      | true => exact hblock
      | false =>
        exact (hitem start high).bind fun t =>
          (leads_pure [t] fun _ h => h).bind fun items => leads_node (.list items)

/-! ## Programs -/

/-- Trees have been read from the token at `start` on, or nothing has been read. -/
def AtTop (text : String) (start : Span) (ts : List Tree) (s : TokenStream) : Prop :=
  Reached text start 0 ts s ∨ ts = [] ∧ s.current.span = start ∧ s.previous? = none

theorem Settles.fromTop (h : Settles text q) :
    Leads text (AtTop text start ts) q fun t => Reached text start 0 (ts ++ [t]) := by
  refine h.push.or ⟨(h start 0).keeps, fun s hs hbefore hquiet => ?_⟩
  obtain ⟨rfl, hstart, -⟩ := hbefore
  exact (h start 0).leads s hs ⟨hstart, .inl rfl⟩ hquiet

theorem leads_skipNewlines : Leads text (AtTop text start ts) skipNewlines fun _ => AtTop text start ts := by
  have hread : Leads text (Reached text start 0 ts) (eat .newline) fun _ => Reached text start 0 ts :=
    (onward_eat .newline).reached
  have heat : Leads text (AtTop text start ts) (eat .newline) fun _ => AtTop text start ts := by
    refine (hread.mono (fun _ h => h) fun _ _ h => .inl h).or ⟨keeps_eat _, fun s hs hbefore hquiet => ?_⟩
    obtain ⟨rfl, hfresh⟩ := hbefore
    have hfirst : Leads text (fun s => s.current.span = start ∧ s.previous? = none) (eat .newline)
        fun found s => if found then Reached text start 0 [] s
          else s.current.span = start ∧ s.previous? = none :=
      leads_eat_first nofun nofun fun s h => ⟨h.1, .inl rfl⟩
    obtain ⟨hs', hafter⟩ := hfirst.leads s hs hfresh hquiet
    refine ⟨hs', ?_⟩
    split at hafter
    · exact .inl hafter
    · exact .inr ⟨rfl, hafter⟩
  exact leads_iterate (fun _ => heat.bind fun _ => leads_pure _ fun _ h => h) ()

/-- A round at the top level reads a tree, or nothing more. -/
theorem leads_topLevelStep (ts : Array Tree) : Leads text (AtTop text start ts.toList)
    (topLevelStep ts) fun r => AtTop text start r.1.toList := by
  have hitem : ∀ {q : Parser Tree}, Settles text q → Leads text (AtTop text start ts.toList) (do
      let item ← q
      endStatement
      return (ts.push item, true)) fun r => AtTop text start r.1.toList := by
    intro q hq
    refine hq.fromTop.bind fun t => onward_endStatement.reached.bind fun _ => leads_pure _ fun _ h => ?_
    rw [Array.toList_push]
    exact .inl h
  refine leads_skipNewlines.bind fun _ => ?_
  have hpeek : Leads text (AtTop text start ts.toList) peek fun _ => AtTop text start ts.toList :=
    ⟨keeps_peek, fun _ hs hbefore _ => ⟨hs, hbefore⟩⟩
  refine hpeek.bind fun found => ?_
  split
  · exact leads_pure _ fun _ h => h
  · exact ((blames_complain _).bind fun _ => keeps_advance.bind fun _ => keeps_pure _).leads
  · exact ((blames_complain _).bind fun _ => keeps_advance.bind fun _ => keeps_pure _).leads
  · exact hitem (settles_fnDef (settles_body _))
  · exact hitem (settles_statement (settles_expression _ 0) (settles_body _))

/-- All that has been read makes a program; a text without statements makes an empty one. -/
theorem leads_programNode (ts : List Tree) : Leads text (AtTop text start ts)
    (spanFrom start >>= fun span => pure (Tree.node span (.program ts))) fun t _ => t.Nested text := by
  refine (leads_node (.program ts)).mono (fun _ h => h) (fun t _ h => ?_) |>.or
    ⟨keeps_node _ _, fun s hs hbefore _ => ⟨hs, ?_⟩⟩
  · obtain ⟨-, -, reach, hsiblings, -⟩ := h
    exact hsiblings.nested t List.mem_cons_self
  · -- Nothing has been read, so the program is where the text ends.
    obtain ⟨rfl, rfl, hprevious⟩ := hbefore
    have hempty : s.current.span.merge s.previousSpan = s.current.span := by
      rw [TokenStream.previousSpan, hprevious, Span.merge_self]
    show Tree.Nested text (.node (s.current.span.merge s.previousSpan) (.program []))
    rw [hempty]
    exact (Siblings.nil hs.current.start_le).node hs.current (Nat.le_refl _) (Nat.le_refl _)

/-- A program that nothing is complained about is a tree with nested spans. -/
theorem leads_program : Leads text (fun s => s.previous? = none) program fun t _ => t.Nested text := by
  refine Leads.bind (Q := fun start => AtTop text start []) ⟨keeps_currentSpan, fun s hs hprevious _ =>
    ⟨hs, .inr ⟨rfl, rfl, hprevious⟩⟩⟩ fun start => ?_
  exact (leads_iterate (H := fun ts => AtTop text start ts.toList) leads_topLevelStep #[]).bind
    fun ts => leads_programNode ts.toList

end

end Parser

/-! ## Stored trees -/

namespace Arena

/-- The node stands in the text and covers its children, which stand one behind the other. -/
structure Nests (text : String) (nodes : Array FlatNode) (flat : FlatNode) : Prop where
  standsIn : flat.span.StandsIn text
  covers : ∀ child ∈ flat.shape.children, ∃ span ∈ spanOf? nodes child,
    flat.span.start ≤ span.start ∧ span.stop ≤ flat.span.stop
  ordered : flat.shape.children.Pairwise fun child child' =>
    ∀ span ∈ spanOf? nodes child, ∀ span' ∈ spanOf? nodes child', span.stop ≤ span'.start

/-- The spans of the nodes are nested. -/
def SpansNest (text : String) (a : Arena) : Prop := ∀ flat ∈ a.nodes, Nests text a.nodes flat

section

variable {text : String} {nodes : Array FlatNode} {first stop : Nat} {ids : List Nat} {ts : List Tree}

/-- A node is stored with the spans of its tree. -/
theorem Listed.nests_node {flat : FlatNode} {t : Tree}
    (h : Listed nodes first flat.shape.children t.shape.children stop) (hspan : flat.span = t.span)
    (ht : t.Nested text) : Nests text nodes flat := by
  obtain ⟨hstands, -, hcovers, hordered⟩ := ht
  refine ⟨hspan ▸ hstands, fun child hchild => ?_, ?_⟩
  · have hmem : spanOf? nodes child ∈ flat.shape.children.map (spanOf? nodes) := List.mem_map_of_mem hchild
    rw [h.spans] at hmem
    obtain ⟨t', ht', hspan'⟩ := List.mem_map.1 hmem
    rw [hspan]
    exact ⟨t'.span, hspan'.symm, hcovers t' ht'⟩
  · refine List.pairwise_map (f := spanOf? nodes)
      (R := fun a b => ∀ span ∈ a, ∀ span' ∈ b, span.stop ≤ span'.start) |>.1 ?_
    rw [h.spans, List.pairwise_map]
    refine hordered.imp ?_
    rintro u v hle _ ⟨⟩ _ ⟨⟩
    exact hle

/-- Trees with nested spans are stored as nodes with nested spans. -/
theorem Listed.nests (h : Listed nodes first ids ts stop) (hts : ∀ t ∈ ts, t.Nested text) {node : Nat}
    {flat : FlatNode} (hflat : nodes[node]? = some flat) (hfirst : first ≤ node) (hstop : node < stop) :
    Nests text nodes flat := by
  induction h with
  | nil => exact absurd hstop (Nat.not_lt_of_le hfirst)
  | @cons first id stop ids t ts flat' hflat' hspan hbelow hbehind ihbelow ihbehind =>
    obtain ⟨ht, hrest⟩ := List.forall_mem_cons.1 hts
    -- The node is below the first tree, its root, or in a later tree.
    rcases Nat.lt_trichotomy node id with hlt | rfl | hlt
    · refine ihbelow ?_ hfirst hlt
      cases ht
      assumption
    · obtain rfl : flat' = flat := Option.some.inj (hflat'.symm.trans hflat)
      exact hbelow.nests_node hspan ht
    · exact ihbehind hrest hlt hstop

end

end Arena

/-- A tree with nested spans is stored with nested spans. -/
theorem Tree.Nested.toArena {text : String} {t : Tree} (h : t.Nested text) : t.toArena.SpansNest text := by
  intro flat hmem
  obtain ⟨node, hnode, hflat⟩ := Array.getElem_of_mem hmem
  exact (place_listed t #[]).2.nests (List.forall_mem_singleton.2 h)
    (Array.getElem?_eq_some_iff.2 ⟨hnode, hflat⟩) (Nat.zero_le _) hnode

/-- The spans of a parsed text are nested. -/
theorem nested_of_parse {text : String} {tree : Tree} (h : parse text = .ok tree) : tree.Nested text := by
  obtain ⟨-, hquiet, rfl⟩ := parse_ok_iff.1 h
  exact (Parser.leads_program.leads (streamOf text) (orderly_streamOf text) rfl hquiet).2

/-- The arena that is filled while a text is parsed is in post-order, and the spans of its nodes are
nested. -/
theorem parse_postOrder {text : String} {tree : Tree} (h : parse text = .ok tree) :
    storeText text = .ok tree.toArena ∧ tree.toArena.IsPostOrder ∧ tree.toArena.SpansNest text := by
  have hstored : storeText text = .ok tree.toArena := by
    rw [storeText_eq, h, Except.map]
  exact ⟨hstored, tree.toArena_isPostOrder, (nested_of_parse h).toArena⟩

/-- A function ends where the next line starts, at the end of its block; parentheses leave no node. -/
theorem parse_postOrder_branches :
    let text := "fn f(n)\n  if n < 2: return -(n)\n  else return (n + 1)\nf(3)\n"
    ∃ tree, parse text = .ok tree ∧
      tree.toArena.nodes.toList.map (fun flat => (flat.span.start, flat.span.stop)) =
        [(13, 14), (17, 18), (13, 18), (29, 30), (27, 30), (20, 31), (18, 31), (47, 48), (51, 52),
          (47, 52), (39, 53), (39, 53), (10, 53), (7, 54), (0, 54), (56, 57), (55, 58), (54, 58), (0, 59)] ∧
      storeText text = .ok tree.toArena ∧ tree.toArena.IsPostOrder ∧ tree.toArena.SpansNest text := by
  intro text
  have hspans : (parse text).toOption.map (fun tree =>
      tree.toArena.nodes.toList.map fun flat => (flat.span.start, flat.span.stop)) =
        some [(13, 14), (17, 18), (13, 18), (29, 30), (27, 30), (20, 31), (18, 31), (47, 48), (51, 52),
          (47, 52), (39, 53), (39, 53), (10, 53), (7, 54), (0, 54), (56, 57), (55, 58), (54, 58), (0, 59)] := by
    decide +kernel
  cases hparse : parse text with
  | error complaints =>
    rw [hparse] at hspans
    cases hspans
  | ok tree =>
    rw [hparse] at hspans
    exact ⟨tree, rfl, Option.some.inj hspans, parse_postOrder hparse⟩

end Abacus
