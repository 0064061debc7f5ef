import Abacus.Proofs.Grammar.Layers
import Abacus.Proofs.Tree.Forward
import Abacus.Proofs.Tree.Lexemes
import Abacus.Proofs.Tree.Reading

/-!
# Exactly the grammar is accepted

What is read of an expression without a complaint is spelt by a derivation of the layered grammar, whose
tree is the one that is given. Every operand is read as far as it goes. So the operator behind it is weaker
than its layer, and what stands before an operator is of the layer that the operator wants on its left.

* `Parser.Reads` — what a parser has read if it has not complained;
* `Derivation.extend` — one more operator behind a chain;
* `Parser.reads_expression` — what has been read as an expression is spelt by a derivation;
* `Parser.expression_exact` — with what `Parser.continues` says, at any places and after any complaints.
-/

namespace Abacus.Grammar

variable {l r : Layer}

/-! ## Layers in layers -/

/-- A tighter layer is tighter by a whole step. -/
theorem Layer.power_tighter (h : l.power + 1 ≤ r.power) : l.power + 2 ≤ r.power := by
  revert h
  cases l <;> cases r <;> decide

/-- The two derivations say the same. -/
structure Derivation.Same (d : Derivation l) (d' : Derivation r) : Prop where
  yield : d'.yield = d.yield
  tree : d'.tree = d.tree
  nesting : d'.nesting = d.nesting

namespace Derivation

theorem exists_unary (d : Derivation l) (h : Layer.unary.power ≤ l.power) :
    ∃ d' : Derivation .unary, d.Same d' := by
  cases l with
  | unary => exact ⟨d, rfl, rfl, rfl⟩
  | primary => exact ⟨.ofPrimary d, rfl, rfl, rfl⟩
  | _ => exact absurd h (by decide)

theorem exists_product (d : Derivation l) (h : Layer.product.power ≤ l.power) :
    ∃ d' : Derivation .product, d.Same d' := by
  cases l with
  | product => exact ⟨d, rfl, rfl, rfl⟩
  | unary | primary =>
    obtain ⟨d', hsame⟩ := d.exists_unary (by decide)
    exact ⟨.ofUnary d', hsame.yield, hsame.tree, hsame.nesting⟩
  | _ => exact absurd h (by decide)

theorem exists_sum (d : Derivation l) (h : Layer.sum.power ≤ l.power) :
    ∃ d' : Derivation .sum, d.Same d' := by
  cases l with
  | comparison => exact absurd h (by decide)
  | sum => exact ⟨d, rfl, rfl, rfl⟩
  | _ =>
    obtain ⟨d', hsame⟩ := d.exists_product (by decide)
    exact ⟨.ofProduct d', hsame.yield, hsame.tree, hsame.nesting⟩

/-- Everything is a comparison. -/
theorem exists_comparison (d : Derivation l) : ∃ d' : Derivation .comparison, d.Same d' := by
  cases l with
  | comparison => exact ⟨d, rfl, rfl, rfl⟩
  | _ =>
    obtain ⟨d', hsame⟩ := d.exists_sum (by decide)
    exact ⟨.ofSum d', hsame.yield, hsame.tree, hsame.nesting⟩

/-- One more operator behind a chain that it may hold, with an operand that it may hold. -/
theorem extend (left : Derivation l) (right : Derivation r) {op : InfixOp}
    (hl : op.power.1 ≤ l.power) (hcomparison : (op.isComparison && decide (l = .comparison)) = false)
    (hr : op.power.2 ≤ r.power) : ∃ d : Derivation (layerOf op),
      d.yield = left.yield ++ opLexeme op :: right.yield ∧
      d.tree = nowhere (.infixOp op left.tree right.tree) ∧
      d.nesting = max left.nesting (right.nesting + 1) := by
  rw [isComparison_eq] at hcomparison
  rw [power_snd, power_layerOf] at hr
  rw [power_layerOf] at hl
  cases hop : layerOf op with
  | comparison =>
    rw [hop] at hr hcomparison
    obtain ⟨left', hleft⟩ := left.exists_sum (by revert hcomparison; cases l <;> decide)
    obtain ⟨right', hright⟩ := right.exists_sum (Layer.power_tighter hr)
    exact ⟨.compared op hop left' right', by rw [yield, hleft.yield, hright.yield],
      by rw [tree, hleft.tree, hright.tree], by rw [nesting, hleft.nesting, hright.nesting]⟩
  | sum =>
    rw [hop] at hl hr
    obtain ⟨left', hleft⟩ := left.exists_sum hl
    obtain ⟨right', hright⟩ := right.exists_product (Layer.power_tighter hr)
    exact ⟨.added op hop left' right', by rw [yield, hleft.yield, hright.yield],
      by rw [tree, hleft.tree, hright.tree], by rw [nesting, hleft.nesting, hright.nesting]⟩
  | product =>
    rw [hop] at hl hr
    obtain ⟨left', hleft⟩ := left.exists_product hl
    obtain ⟨right', hright⟩ := right.exists_unary (Layer.power_tighter hr)
    exact ⟨.multiplied op hop left' right', by rw [yield, hleft.yield, hright.yield],
      by rw [tree, hleft.tree, hright.tree], by rw [nesting, hleft.nesting, hright.nesting]⟩
  | unary | primary => cases op <;> cases hop

end Derivation

mutual

/-- The trees of derivations stand nowhere. -/
theorem Derivation.unplaced_tree : {l : Layer} → (d : Derivation l) → d.tree.unplaced = d.tree
  | _, .compared _ _ left right | _, .added _ _ left right | _, .multiplied _ _ left right => by
    rw [Derivation.tree, nowhere, Tree.unplaced_node, Shape.map, left.unplaced_tree, right.unplaced_tree]
  | _, .ofSum d | _, .ofProduct d | _, .ofUnary d | _, .ofPrimary d | _, .enclosed d => d.unplaced_tree
  | _, .negated operand => by
    rw [Derivation.tree, nowhere, Tree.unplaced_node, Shape.map, operand.unplaced_tree]
  | _, .integer _ | _, .floating _ | _, .variable _ => rfl
  | _, .call _ arguments => by
    rw [Derivation.tree, nowhere, nowhere, Tree.unplaced_node, Shape.map, Tree.unplaced_node, Shape.map,
      arguments.unplaced_trees]

theorem Derivations.unplaced_trees : ∀ ds : Derivations, ds.trees.map Tree.unplaced = ds.trees
  | .nil => rfl
  | .cons first rest => by
    rw [Derivations.trees, List.map_cons, first.unplaced_tree, rest.unplaced_trees]

end

/-- What may come behind a whole expression: no operator, and no parenthesis behind a name. -/
structure EndsBefore (ls tail : List Lexeme) : Prop where
  noInfix : Parser.infixOf? (tail.headD .eof) = none
  apart : EndsInName ls → tail.headD .eof ≠ .leftParen

theorem ends_iff {ls tail : List Lexeme} : Ends 0 ls tail ↔ EndsBefore ls tail where
  mp h := ⟨Option.eq_none_iff_forall_ne_some.2 fun op hop => Nat.not_lt_zero _ (h.weaker op hop), h.apart⟩
  mpr h := by
    refine ⟨fun op hop => ?_, h.apart⟩
    rw [h.noInfix] at hop
    cases hop

end Abacus.Grammar

namespace Abacus.Parser

open TokenStream (bare)
open Grammar

variable {α β : Type} {p : Parser α} {read ls : List Lexeme} {Q : List Lexeme → List Lexeme → α → Prop}
  {R : List Lexeme → List Lexeme → β → Prop}

/-! ## What has been read -/

/-- If the parser does not complain, it takes lexemes from the front, and `Q` holds of what it has taken,
of what is left and of its result. -/
def Reads (p : Parser α) (read ls : List Lexeme) (Q : List Lexeme → List Lexeme → α → Prop) : Prop :=
  (p (bare read ls)).2.complaints = #[] → ∃ taken tail, ls = taken ++ tail ∧
    (p (bare read ls)).2 = bare (read ++ taken) tail ∧ Q taken tail (p (bare read ls)).1

theorem Reads.mono {Q' : List Lexeme → List Lexeme → α → Prop} (h : Reads p read ls Q)
    (hQ : ∀ taken tail a, ls = taken ++ tail → Q taken tail a → Q' taken tail a) : Reads p read ls Q' := by
  intro hquiet
  obtain ⟨taken, tail, hls, hstream, hresult⟩ := h hquiet
  exact ⟨taken, tail, hls, hstream, hQ _ _ _ hls hresult⟩

theorem Reads.bind {next : α → Parser β} (h : Reads p read ls Q) (hkeeps : ∀ a, Keeps (next a))
    (hnext : ∀ a taken tail, ls = taken ++ tail → Q taken tail a →
      Reads (next a) (read ++ taken) tail fun more => R (taken ++ more)) :
    Reads (p >>= next) read ls R := by
  intro hquiet
  obtain ⟨taken, tail, hls, hstream, hresult⟩ := h (hkeeps _ _ hquiet)
  have hrun : (p >>= next) (bare read ls) =
      next (p (bare read ls)).1 (bare (read ++ taken) tail) := by rw [← hstream]; rfl
  rw [hrun] at hquiet ⊢
  obtain ⟨more, tail', htail, hstream', hresult'⟩ := hnext _ taken tail hls hresult hquiet
  exact ⟨taken ++ more, tail', by rw [hls, htail, List.append_assoc],
    by rw [hstream', List.append_assoc], hresult'⟩

/-- Nothing is taken. -/
theorem reads_pure {a : α} (h : Q [] ls a) : Reads (pure a) read ls Q :=
  fun _ => ⟨[], ls, rfl, by rw [List.append_nil]; rfl, h⟩

theorem Blames.reads (h : Blames p) : Reads p read ls Q := fun hquiet => absurd hquiet (h _)

/-! ## Steps -/

theorem Reads.peek {next : Lexeme → Parser β} (h : Reads (next (ls.headD .eof)) read ls R) :
    Reads (Parser.peek >>= next) read ls R := by
  have hrun : (Parser.peek >>= next) (bare read ls) = next (ls.headD .eof) (bare read ls) := by
    rw [peek_bind_apply, TokenStream.lexeme_current_bare]
  unfold Reads
  rwa [hrun]

theorem Reads.placed {next : Span → Parser β} (h : Reads (next Span.none) read ls R) :
    Reads (currentSpan >>= next) read ls R := by
  have hrun : (currentSpan >>= next) (bare read ls) = next Span.none (bare read ls) := by
    show next (bare read ls).current.span (bare read ls) = _
    rw [TokenStream.span_current_bare]
  unfold Reads
  rwa [hrun]

theorem Reads.spanned {next : Span → Parser β} (h : Reads (next Span.none) read ls R) :
    Reads (spanFrom Span.none >>= next) read ls R := by
  have hrun : (spanFrom Span.none >>= next) (bare read ls) = next Span.none (bare read ls) := by
    show next (Span.none.merge (bare read ls).previousSpan) (bare read ls) = _
    rw [TokenStream.previousSpan_bare, Span.merge_self]
  unfold Reads
  rwa [hrun]

/-- One lexeme is taken. -/
theorem Reads.advance {next : Unit → Parser β} {first : Lexeme} {rest : List Lexeme}
    (h : Reads (next ()) (read ++ [first]) rest fun more => R (first :: more)) :
    Reads (Parser.advance >>= next) read (first :: rest) R := by
  have hrun : (Parser.advance >>= next) (bare read (first :: rest)) =
      next () (bare (read ++ [first]) rest) := by
    show next () (bare read (first :: rest)).advance = _
    rw [TokenStream.advance_bare]
  intro hquiet
  rw [hrun] at hquiet ⊢
  obtain ⟨more, tail, hrest, hstream, hresult⟩ := h hquiet
  exact ⟨first :: more, tail, by rw [hrest]; rfl, by rw [hstream, List.append_assoc]; rfl, hresult⟩

theorem reads_expect {lexeme : Lexeme} (heof : lexeme ≠ .eof) :
    Reads (expect lexeme) read ls fun taken _ span => taken = [lexeme] ∧ span = Span.none := by
  refine Reads.placed (Reads.peek ?_)
  split
  · next hfound =>
    cases ls with
    | nil => exact absurd hfound.symm heof
    | cons first rest => exact Reads.advance (reads_pure ⟨congrArg (fun l => [l]) hfound, rfl⟩)
  · exact ((blames_complain _).bind fun _ => keeps_pure _).reads

theorem reads_eat {lexeme : Lexeme} (heof : lexeme ≠ .eof) : Reads (eat lexeme) read ls
    fun taken tail found => found = true ∧ taken = [lexeme] ∨
      found = false ∧ taken = [] ∧ tail.headD .eof ≠ lexeme := by
  refine Reads.peek ?_
  split
  · next hfound =>
    cases ls with
    | nil => exact absurd hfound.symm heof
    | cons first rest => exact Reads.advance (reads_pure (.inl ⟨rfl, congrArg (fun l => [l]) hfound⟩))
  · next hother => exact reads_pure (.inr ⟨rfl, rfl, hother⟩)

/-- A loop: `P` holds before each round, of what has been taken before it, and `P` or `Q` after it. A
round behind which the loop goes on takes something. -/
theorem reads_iterate {step : β → Parser (β × Bool)} (P Q : List Lexeme → List Lexeme → β → Prop)
    (hkeeps : ∀ acc, Keeps (step acc))
    (hstep : ∀ acc read done ls, P done ls acc → Reads (step acc) read ls fun taken tail next =>
      next.2 = true ∧ taken ≠ [] ∧ P (done ++ taken) tail next.1 ∨
        next.2 = false ∧ Q (done ++ taken) tail next.1)
    {acc : β} {read done ls : List Lexeme} (h : P done ls acc) :
    Reads (iterate step acc) read ls fun taken => Q (done ++ taken) := by
  -- by induction on what is left
  induction hlength : ls.length using Nat.strongRecOn generalizing acc read done ls with
  | ind n ih =>
    intro hquiet
    obtain ⟨taken, tail, hls, hstream, hround⟩ :=
      hstep acc read done ls h (quiet_round hkeeps hquiet)
    obtain ⟨hgo, htaken, hnext⟩ | ⟨hstop, hnext⟩ := hround
    · have hshorter : tail.length < ls.length := by
        have := List.length_pos_iff.2 htaken
        rw [hls, List.length_append]
        omega
      have hrun := iterate_go hgo (by rw [hstream]; simpa using hshorter)
      rw [hstream] at hrun
      rw [hrun] at hquiet ⊢
      obtain ⟨more, tail', htail, hstream', hresult⟩ := ih _ (hlength ▸ hshorter) hnext rfl hquiet
      exact ⟨taken ++ more, tail', by rw [hls, htail, List.append_assoc],
        by rw [hstream', List.append_assoc], by rwa [List.append_assoc] at hresult⟩
    · rw [iterate_stop hstop]
      exact ⟨taken, tail, hls, hstream, hnext⟩

/-! ## Lists -/

theorem intercalate_concat {γ : Type} (sep : List γ) (lists : List (List γ)) (last : List γ) :
    lists.flatMap (· ++ sep) ++ last = sep.intercalate (lists ++ [last]) := by
  induction lists with
  | nil => simp
  | cons first rest ih =>
    have hne : rest ++ [last] ≠ [] := by simp
    obtain ⟨second, more, hcons⟩ := List.exists_cons_of_ne_nil hne
    rw [List.flatMap_cons, List.append_assoc, ih, List.cons_append, hcons, List.intercalate_cons_cons]

section

variable {element : Parser α} {Good : List Lexeme → α → Prop}

theorem reads_commaSeparated (hkeeps : Keeps element)
    (h : ∀ read ls, Reads element read ls fun taken _ => Good taken) :
    Reads (commaSeparated element) read ls fun taken _ as => ∃ lists,
      lists ≠ [] ∧ taken = [Lexeme.comma].intercalate lists ∧ List.Forall₂ Good lists as := by
  let P (done _ : List Lexeme) (sofar : Array α) := ∃ lists,
    done = lists.flatMap (· ++ [.comma]) ∧ List.Forall₂ Good lists sofar.toList
  let Q (done _ : List Lexeme) (all : Array α) := ∃ lists,
    lists ≠ [] ∧ done = [Lexeme.comma].intercalate lists ∧ List.Forall₂ Good lists all.toList
  have hloop : Reads (iterate (fun (sofar : Array α) => do
      let next ← element
      return (sofar.push next, ← eat .comma)) #[]) read ls Q := by
    refine reads_iterate P Q (fun _ => hkeeps.bind fun _ => (keeps_eat _).bind fun _ => keeps_pure _) ?_
      ⟨[], rfl, .nil⟩
    rintro sofar read done ls ⟨lists, rfl, hlists⟩
    refine (h read ls).bind (fun _ => (keeps_eat _).bind fun _ => keeps_pure _) ?_
    intro a taken tail _ ha
    refine (reads_eat (by simp)).bind (fun _ => keeps_pure _) ?_
    intro found taken' tail' _ hfound
    have hall : List.Forall₂ Good (lists ++ [taken]) (sofar.push a).toList := by
      rw [Array.toList_push]
      exact List.rel_append hlists (.cons ha .nil)
    apply reads_pure
    obtain ⟨rfl, rfl⟩ | ⟨rfl, rfl, -⟩ := hfound
    · refine .inl ⟨rfl, by simp, lists ++ [taken], ?_, hall⟩
      simp
    · refine .inr ⟨rfl, lists ++ [taken], by simp, ?_, hall⟩
      rw [← intercalate_concat]
      simp
  refine hloop.bind (fun _ => keeps_pure _) fun all taken tail _ hQ => reads_pure ?_
  rw [List.append_nil]
  exact hQ

theorem reads_parenthesised (hkeeps : Keeps element)
    (h : ∀ read ls, Reads element read ls fun taken _ => Good taken) :
    Reads (parenthesised element) read ls fun taken _ result => result.1 = Span.none ∧
      ∃ lists, taken = parenthesise lists ∧ List.Forall₂ Good lists result.2 := by
  have hclose : ∀ (start : Span) (as : List α), Keeps (expect .rightParen >>= fun _ => pure (start, as)) :=
    fun start as => (keeps_expect _).bind fun _ => keeps_pure _
  refine (reads_expect (by simp)).bind (fun start => keeps_peek.bind fun _ =>
    .ite _ ((keeps_pure _).bind fun _ => hclose _ _)
      ((keeps_commaSeparated hkeeps).bind fun _ => hclose _ _)) ?_
  rintro start _ tail _ ⟨rfl, hstart⟩
  refine Reads.peek ?_
  -- the list without its closing parenthesis
  let P (taken _ : List Lexeme) (as : List α) := ∃ lists,
    taken = [Lexeme.comma].intercalate lists ∧ List.Forall₂ Good lists as
  have hlist : ∀ q : Parser (List α), Reads q (read ++ [.leftParen]) tail P →
      Reads (q >>= fun as => expect .rightParen >>= fun _ => pure (start, as)) (read ++ [.leftParen]) tail
        fun more _ result => result.1 = Span.none ∧ ∃ lists,
          [.leftParen] ++ more = parenthesise lists ∧ List.Forall₂ Good lists result.2 := by
    intro q hq
    refine hq.bind (fun _ => hclose _ _) ?_
    rintro as taken tail' _ ⟨lists, rfl, hlists⟩
    refine (reads_expect (by simp)).bind (fun _ => keeps_pure _) ?_
    rintro _ _ tail'' _ ⟨rfl, -⟩
    exact reads_pure ⟨hstart, lists, by simp [parenthesise], hlists⟩
  split
  · exact hlist (pure []) (reads_pure ⟨[], rfl, .nil⟩)
  · refine hlist _ ((reads_commaSeparated hkeeps h).mono ?_)
    rintro taken tail' as _ ⟨lists, -, htaken, hlists⟩
    exact ⟨lists, htaken, hlists⟩

end

/-! ## Expressions -/

section

variable {room least : Nat}

/-- What has been taken is spelt by a derivation, which nests no deeper than there is room. -/
structure Spelt {l : Layer} (d : Derivation l) (room : Nat) (taken : List Lexeme) (t : Tree) : Prop where
  yield : d.yield = taken
  tree : d.tree = t
  nesting : d.nesting ≤ room

theorem Spelt.span {l : Layer} {d : Derivation l} {taken : List Lexeme} {t : Tree}
    (h : Spelt d room taken t) : t.span = Span.none := h.tree ▸ d.span_tree

/-- What has been read as an expression with the power `least`. -/
def SpeltFrom (least room : Nat) (taken tail : List Lexeme) (t : Tree) : Prop :=
  ∃ (l : Layer) (d : Derivation l), least ≤ l.power ∧ Spelt d room taken t ∧ Ends least taken tail

/-- All that is read with so much room is spelt by a derivation. -/
def Sound (room : Nat) : Prop :=
  ∀ least ≤ negatePower, ∀ read ls, Reads (expression room least) read ls (SpeltFrom least room)

theorem exists_derivations {lists : List (List Lexeme)} {ts : List Tree}
    (h : List.Forall₂ (fun ls t => ∃ d : Derivation .comparison, Spelt d room ls t) lists ts) :
    ∃ ds : Derivations, ds.yields = lists ∧ ds.trees = ts ∧ ds.nesting ≤ room := by
  induction h with
  | nil => exact ⟨.nil, rfl, rfl, Nat.zero_le _⟩
  | cons hfirst _ ih =>
    obtain ⟨d, hd⟩ := hfirst
    obtain ⟨ds, hyields, htrees, hnesting⟩ := ih
    exact ⟨.cons d ds, by rw [Derivations.yields, hd.yield, hyields],
      by rw [Derivations.trees, hd.tree, htrees], Nat.max_le.2 ⟨hd.nesting, hnesting⟩⟩

theorem Sound.comparison (h : Sound room) (read ls : List Lexeme) : Reads (expression room 0) read ls
    fun taken _ t => ∃ d : Derivation .comparison, Spelt d room taken t := by
  refine (h 0 (Nat.zero_le _) read ls).mono fun taken tail t _ hspelt => ?_
  obtain ⟨l, d, -, hd, -⟩ := hspelt
  obtain ⟨d', hsame⟩ := d.exists_comparison
  exact ⟨d', hsame.yield.trans hd.yield, hsame.tree.trans hd.tree, hsame.nesting ▸ hd.nesting⟩

theorem reads_callOf (h : Sound room) (name : String) (read ls : List Lexeme) :
    Reads (callOf (expression room 0) name Span.none) read ls fun taken _ t =>
      ∃ d : Derivation .primary, Spelt d (room + 1) (.ident name :: taken) t ∧
        ¬EndsInName (.ident name :: taken) := by
  refine (reads_parenthesised (keeps_expression room 0) h.comparison).bind
    (fun _ => (keeps_spanFrom _).bind fun _ => keeps_node _ _) ?_
  rintro ⟨start, ts⟩ _ tail _ ⟨rfl, lists, rfl, hlists⟩
  obtain ⟨ds, hyields, htrees, hnesting⟩ := exists_derivations hlists
  refine Reads.spanned (Reads.spanned (reads_pure ⟨.call name ds, ⟨?_, ?_, ?_⟩, ?_⟩))
  · rw [Derivation.yield, hyields, List.append_nil]
  · rw [Derivation.tree, htrees]
    rfl
  · exact Nat.succ_le_succ hnesting
  · rw [List.append_nil]
    exact not_endsInName_closed (.ident name :: .leftParen :: [Lexeme.comma].intercalate lists)

theorem reads_primary (h : Sound room) (read ls : List Lexeme) :
    Reads (primary (expression room 0)) read ls fun taken tail t =>
      ∃ d : Derivation .primary, Spelt d (room + 1) taken t ∧
        (EndsInName taken → tail.headD .eof ≠ .leftParen) := by
  refine Reads.placed (Reads.peek ?_)
  cases ls with
  | nil => exact (blames_unexpected _ _).reads
  | cons first rest =>
    cases first with
    | integer value =>
      refine Reads.advance (reads_pure ⟨.integer value, ⟨rfl, rfl, Nat.le_add_left 1 room⟩, ?_⟩)
      rintro ⟨name, ⟨⟩⟩
    | floating value =>
      refine Reads.advance (reads_pure ⟨.floating value, ⟨rfl, rfl, Nat.le_add_left 1 room⟩, ?_⟩)
      rintro ⟨name, ⟨⟩⟩
    | ident name =>
      refine Reads.advance (Reads.peek ?_)
      split
      · refine (reads_callOf h name _ _).mono fun taken tail t _ hcall => ?_
        obtain ⟨d, hd, hends⟩ := hcall
        exact ⟨d, hd, fun hname => absurd hname hends⟩
      · next hother =>
        exact reads_pure ⟨.variable name, ⟨rfl, rfl, Nat.le_add_left 1 room⟩, fun _ => hother⟩
    | leftParen =>
      refine Reads.advance ((h.comparison _ _).bind
        (fun _ => (keeps_expect _).bind fun _ => keeps_pure _) ?_)
      rintro t taken tail _ ⟨d, hd⟩
      refine (reads_expect (by simp)).bind (fun _ => keeps_pure _) ?_
      rintro _ _ tail' _ ⟨rfl, -⟩
      refine reads_pure ⟨.enclosed d, ⟨?_, hd.tree, Nat.succ_le_succ hd.nesting⟩, ?_⟩
      · simp [Derivation.yield, hd.yield]
      · intro hname
        exact absurd hname (by simpa using not_endsInName_closed (.leftParen :: taken))
    | _ => exact (blames_unexpected _ _).reads

theorem reads_operand (h : Sound room) (read ls : List Lexeme) :
    Reads (operand (expression room)) read ls fun taken tail t =>
      ∃ d : Derivation .unary, Spelt d (room + 1) taken t ∧
        (EndsInName taken → tail.headD .eof ≠ .leftParen) := by
  refine Reads.peek ?_
  split
  · next hminus =>
    cases ls with
    | nil => cases hminus
    | cons first rest =>
      obtain rfl : first = .minus := hminus
      refine Reads.placed (Reads.advance ((h negatePower (Nat.le_refl _) _ _).bind (fun _ => keeps_pure _) ?_))
      rintro t taken tail _ ⟨l, d, hleast, hd, hends⟩
      obtain ⟨d', hsame⟩ := d.exists_unary hleast
      have hyield := hsame.yield.trans hd.yield
      refine reads_pure ⟨.negated d', ⟨?_, ?_, ?_⟩, fun hname => hends.apart ?_⟩
      · rw [Derivation.yield, hyield, List.append_nil]
      · rw [hd.span, Span.merge_self, Derivation.tree, hsame.tree, hd.tree]
        rfl
      · exact Nat.succ_le_succ (hsame.nesting ▸ hd.nesting)
      · rw [List.append_nil, ← hyield] at hname
        exact hyield ▸ d'.endsInName_cons.1 hname
  · refine (reads_primary h read ls).mono fun taken tail t _ hspelt => ?_
    obtain ⟨d, hd, hends⟩ := hspelt
    exact ⟨.ofPrimary d, ⟨hd.yield, hd.tree, hd.nesting⟩, hends⟩

theorem eq_opLexeme_cons {op : InfixOp} {ls : List Lexeme} (h : infixOf? (ls.headD .eof) = some op) :
    ∃ rest, ls = opLexeme op :: rest := by
  cases ls with
  | nil => cases h
  | cons first rest => cases first <;> cases h <;> exact ⟨rest, rfl⟩

/-- Where the loop over operators has come to: all that has been taken is one derivation, and the operator
behind it, if any, is not stronger than its layer. -/
def Chain (least room : Nat) (done ls : List Lexeme) (chain : Tree × Bool) : Prop :=
  ∃ (l : Layer) (d : Derivation l), least ≤ l.power ∧ Spelt d room done chain.1 ∧
    chain.2 = decide (l = .comparison) ∧ Ends (l.power + 1) done ls

theorem reads_infixStep (h : Sound room) (chain : Tree × Bool) (read done ls : List Lexeme)
    (hchain : Chain least (room + 1) done ls chain) :
    Reads (infixStep (expression room) least chain) read ls fun taken tail next =>
      next.2 = true ∧ taken ≠ [] ∧ Chain least (room + 1) (done ++ taken) tail next.1 ∨
        next.2 = false ∧ SpeltFrom least (room + 1) (done ++ taken) tail next.1.1 := by
  obtain ⟨left, compared⟩ := chain
  obtain ⟨l, d, hleast, hd, hflag, hends⟩ := hchain
  dsimp only at hd hflag
  -- the loop ends in front of an operator that is too weak
  have hstop : (∀ op, infixOf? (ls.headD .eof) = some op → op.power.1 < least) →
      SpeltFrom least (room + 1) (done ++ []) ls left := by
    intro hweaker
    rw [List.append_nil]
    exact ⟨l, d, hleast, hd, hweaker, hends.apart⟩
  refine Reads.peek ?_
  cases hop : infixOf? (ls.headD .eof) with
  | none => exact reads_pure (.inr ⟨rfl, hstop fun op hop' => by rw [hop] at hop'; cases hop'⟩)
  | some op =>
    dsimp only
    by_cases hpower : op.power.1 < least
    · rw [if_pos hpower]
      exact reads_pure (.inr ⟨rfl, hstop fun op' hop' => by rw [hop] at hop'; cases hop'; exact hpower⟩)
    · rw [if_neg hpower]
      have hgo : ∀ chain : Tree, Keeps (do
          let right ← expression room op.power.2
          let tree := Tree.node (chain.span.merge right.span) (.infixOp op chain right)
          return ((tree, op.isComparison), true)) :=
        fun chain => (keeps_expression room _).bind fun _ => keeps_pure _
      by_cases hcompared : (op.isComparison && compared) = true
      · rw [if_pos hcompared]
        exact ((blames_complainWithHelp _ _).bind fun _ => keeps_advance.bind fun _ => hgo left).reads
      · rw [if_neg hcompared]
        obtain ⟨rest, rfl⟩ := eq_opLexeme_cons hop
        have hright : op.power.2 ≤ negatePower := power_snd op ▸ power_lt_negatePower op
        refine Reads.advance ((h op.power.2 hright _ _).bind (fun _ => keeps_pure _) ?_)
        rintro right taken tail _ ⟨r, e, hr, he, hrest⟩
        rw [hflag, Bool.not_eq_true] at hcompared
        obtain ⟨d', hyield, htree, hnesting⟩ :=
          d.extend e (Nat.lt_succ_iff.1 (hends.weaker op hop)) hcompared hr
        refine reads_pure (.inl ⟨rfl, by simp, layerOf op, d', ?_, ⟨?_, ?_, ?_⟩, ?_, ?_⟩)
        · exact power_layerOf op ▸ Nat.not_lt.1 hpower
        · rw [hyield, hd.yield, he.yield, List.append_nil]
        · rw [htree, hd.tree, he.tree, hd.span, he.span, Span.merge_self]
          rfl
        · exact hnesting ▸ Nat.max_le.2 ⟨hd.nesting, Nat.succ_le_succ he.nesting⟩
        · exact isComparison_eq op
        · rw [List.append_nil, ← power_layerOf, ← power_snd]
          refine hrest.mono (Nat.le_refl _) fun hname => ?_
          rw [← he.yield] at hname ⊢
          exact e.endsInName_infixOp.1 hname

/-- All that is read without a complaint is spelt by a derivation. -/
theorem reads_expression (room : Nat) : Sound room := by
  induction room with
  | zero =>
    intro least _ read ls
    exact ((blames_complainWithHelp _ _).bind fun _ => keeps_currentSpan.bind fun _ => keeps_pure _).reads
  | succ room h =>
    intro least hleast read ls
    have hloop : ∀ chain, Keeps (iterate (infixStep (expression room) least) chain) :=
      keeps_iterate (keeps_infixStep (keeps_expression room) least)
    refine (reads_operand h read ls).bind (fun _ => (hloop _).bind fun _ => keeps_pure _) ?_
    rintro first taken tail _ ⟨d, hd, hends⟩
    have hstart : Chain least (room + 1) taken tail (first, false) :=
      ⟨.unary, d, hleast, hd, rfl, ends_negatePower hends |>.mono (Nat.le_succ _) id⟩
    refine (reads_iterate (Chain least (room + 1)) (fun done tail chain =>
      SpeltFrom least (room + 1) done tail chain.1) (keeps_infixStep (keeps_expression room) least)
      (fun chain read done ls => reads_infixStep h chain read done ls) hstart).bind
        (fun _ => keeps_pure _) ?_
    rintro chain more tail' _ hspelt
    exact reads_pure (by rwa [List.append_nil])

end

/-! ## At any places, after any complaints -/

/-- Without its complaints, a stream is alike to one of the same lexemes at no place. -/
theorem alike_bare (s : TokenStream) :
    (s.withComplaints #[]).Alike (bare (s.previous?.map Token.lexeme).toList s.lexemes) where
  lexemes := TokenStream.lexemes_bare.symm
  previous := by
    obtain ⟨previous, rest, finish, complaints⟩ := s
    cases previous <;> rfl
  complaints := rfl

/-- What reading an expression comes to is known from its lexemes. -/
theorem expression_bare (room : Nat) (s : TokenStream) :
    ∃ read, let result := expression room 0 (bare read s.lexemes)
      (expression room 0 s).1.unplaced = result.1.unplaced ∧
      (expression room 0 s).2.lexemes = result.2.lexemes ∧
      ((expression room 0 s).2.complaints = s.complaints ↔ result.2.complaints = #[]) ∧
      ∃ tokens, s.rest = tokens ++ (expression room 0 s).2.rest := by
  refine ⟨(s.previous?.map Token.lexeme).toList, ?_⟩
  obtain ⟨tokens, added, hrest, hresult⟩ := forward_expression room 0 (s.withComplaints #[])
  obtain ⟨htree, halike⟩ := agrees_expression room 0 _ _ (alike_bare s)
  have hquiet : (expression room 0 (s.withComplaints #[])).2.complaints = #[] ++ added :=
    congrArg (·.2.complaints) (hresult #[])
  have hrun : expression room 0 s = _ := hresult s.complaints
  rw [Array.empty_append] at hquiet
  refine ⟨?_, ?_, ?_, tokens, ?_⟩
  · rw [hrun]
    exact htree
  · rw [hrun]
    exact halike.lexemes
  · have hcomplaints := congrArg List.length halike.complaints
    rw [List.length_map, List.length_map, Array.length_toList, Array.length_toList] at hcomplaints
    have hsame : s.complaints ++ added = s.complaints ↔ added = #[] := by simp
    rw [hrun]
    show s.complaints ++ added = s.complaints ↔ _
    rw [hsame, ← hquiet, ← Array.size_eq_zero_iff, ← Array.size_eq_zero_iff, hcomplaints]
  · rw [hrun]
    exact hrest

/-- The derivation is what has been read from `s`: exactly the tokens that it spells are gone, nothing has
been complained about, and the tree, wherever it stands, is that of the derivation. -/
structure IsRead {l : Layer} (d : Derivation l) (s : TokenStream) (result : Tree × TokenStream) : Prop where
  consumed : ∃ tokens, s.rest = tokens ++ result.2.rest ∧ tokens.map Token.lexeme = d.yield
  quiet : result.2.complaints = s.complaints
  tree : result.1.unplaced = d.tree

/-- Expressions are exactly what the layered grammar derives. A derivation that nests no deeper than there
is room is read as it is, if no operator follows it and no parenthesis behind a name. And whenever nothing
is complained about, such a derivation has been read. -/
theorem expression_exact (room : Nat) (s : TokenStream) :
    (∀ (d : Derivation .comparison) (tail : List Lexeme), d.nesting ≤ room →
      s.lexemes = d.yield ++ tail → EndsBefore d.yield tail → IsRead d s (expression room 0 s)) ∧
    ((expression room 0 s).2.complaints = s.complaints → ∃ d : Derivation .comparison,
      d.nesting ≤ room ∧ EndsBefore d.yield (expression room 0 s).2.lexemes ∧
        IsRead d s (expression room 0 s)) := by
  obtain ⟨read, htree, hlexemes, hquiet, tokens, hrest⟩ := expression_bare room s
  -- the tokens that are gone are those of the lexemes that are gone
  have hconsumed : ∀ ls, s.lexemes = ls ++ (expression room 0 s).2.lexemes →
      ∃ tokens, s.rest = tokens ++ (expression room 0 s).2.rest ∧ tokens.map Token.lexeme = ls := by
    intro ls hls
    have hboth : tokens.map Token.lexeme ++ (expression room 0 s).2.lexemes =
        ls ++ (expression room 0 s).2.lexemes := by
      rw [← hls, TokenStream.lexemes, TokenStream.lexemes, ← List.map_append, ← hrest]
    exact ⟨tokens, hrest, List.append_cancel_right hboth⟩
  constructor
  · intro d tail hroom hls hends
    have hrun := (continues d).expression hroom (Nat.zero_le _) read tail (ends_iff.2 hends)
    rw [← hls] at hrun
    rw [hrun] at htree hlexemes hquiet
    refine ⟨hconsumed _ ?_, hquiet.2 rfl, htree.trans d.unplaced_tree⟩
    rw [hlexemes, TokenStream.lexemes_bare]
    exact hls
  · intro hsame
    obtain ⟨taken, tail, hls, hstream, l, d, -, hd, hends⟩ :=
      reads_expression room 0 (Nat.zero_le _) read s.lexemes (hquiet.1 hsame)
    obtain ⟨d', hlike⟩ := d.exists_comparison
    have hyield := hlike.yield.trans hd.yield
    rw [hstream, TokenStream.lexemes_bare] at hlexemes
    refine ⟨d', hlike.nesting ▸ hd.nesting, ?_, hconsumed _ ?_, hsame, ?_⟩
    · rw [hlexemes, hyield]
      exact ends_iff.1 hends
    · rw [hlexemes, hyield]
      exact hls
    · rw [htree, ← hd.tree, d.unplaced_tree, hlike.tree]

/-- `-x * 2` at the end of a line is a product, and its left factor is the negation. -/
theorem expression_exact_negation :
    let d : Derivation .comparison :=
      .ofSum (.ofProduct (.multiplied .mul rfl (.ofUnary (.negated (.ofPrimary (.variable "x"))))
        (.ofPrimary (.integer 2))))
    let s := bare [] [.minus, .ident "x", .star, .integer 2, .newline]
    IsRead d s (expression maxNesting 0 s) ∧
      d.tree = nowhere (.infixOp .mul (nowhere (.negate (nowhere (.ident "x")))) (nowhere (.integer 2))) :=
  ⟨(expression_exact maxNesting _).1 _ [.newline] (by decide) rfl ⟨rfl, fun _ => by decide⟩, rfl⟩

end Abacus.Parser
