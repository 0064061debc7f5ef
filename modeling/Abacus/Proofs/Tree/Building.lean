import Abacus.Tree.Statement

/-!
# What holds of the trees that are read

A parser builds its trees from the inside out, with less room for nesting further inside. So what holds of a
tree is proved for each way to build one from others, and that is all there is to prove: the parsers
themselves are followed here, once.

* `Parser.Passes` — a parser that meets good names only gives something good;
* `Tree.BuiltUp` — what holds of trees, by the room for nesting, holds of the trees built of them;
* `Parser.passes_expression`, `Parser.passes_body`, `Parser.passes_program` — so it holds of what is read.
-/

namespace Abacus

/-! ## Reading -/

/-- The names among the tokens still to come are good. -/
def TokenStream.NamesOnly (good : String → Prop) (s : TokenStream) : Prop :=
  ∀ token ∈ s.rest, ∀ name, token.lexeme = .ident name → good name

/-- If the lexeme is a name, then a good one. -/
def Lexeme.NamesOnly (good : String → Prop) (l : Lexeme) : Prop := ∀ name, l = .ident name → good name

namespace TokenStream.NamesOnly

variable {good : String → Prop} {s : TokenStream}

theorem current (h : s.NamesOnly good) : s.current.lexeme.NamesOnly good := by
  intro name hname
  unfold TokenStream.current at hname
  cases hrest : s.rest with
  | nil =>
    rw [hrest] at hname
    cases hname
  | cons token rest =>
    rw [hrest] at hname
    exact h token (hrest ▸ List.mem_cons_self) name hname

theorem advance (h : s.NamesOnly good) : s.advance.NamesOnly good := by
  intro token hmem
  rw [rest_advance] at hmem
  exact h token (List.mem_of_mem_tail hmem)

end TokenStream.NamesOnly

namespace Parser

variable {α β : Type} {good : String → Prop} {p q : Parser α} {holds : α → Prop}

/-- If the parser meets good names only, then something holds of what it gives. -/
def Passes (good : String → Prop) (p : Parser α) (holds : α → Prop) : Prop :=
  ∀ s : TokenStream, s.NamesOnly good → holds (p s).1 ∧ (p s).2.NamesOnly good

theorem passes_pure {a : α} (h : holds a) : Passes good (pure a) holds := fun _ hs => ⟨h, hs⟩

theorem passes_return (a : α) : Passes good (pure a) (· = a) := fun _ hs => ⟨rfl, hs⟩

theorem Passes.bind {next : α → Parser β} {holds' : β → Prop} (hp : Passes good p holds)
    (hnext : ∀ a, holds a → Passes good (next a) holds') : Passes good (p >>= next) holds' := by
  intro s hs
  obtain ⟨ha, hs'⟩ := hp s hs
  exact hnext _ ha _ hs'

theorem Passes.map {f : α → β} {holds' : β → Prop} (hp : Passes good p holds)
    (hf : ∀ a, holds a → holds' (f a)) : Passes good (f <$> p) holds' := by
  intro s hs
  obtain ⟨ha, hs'⟩ := hp s hs
  exact ⟨hf _ ha, hs'⟩

theorem Passes.ite (c : Prop) [Decidable c] (hp : Passes good p holds) (hq : Passes good q holds) :
    Passes good (if c then p else q) holds := by
  split
  · exact hp
  · exact hq

/-- What each round of a loop keeps holds at the end. -/
theorem passes_iterate {step : β → Parser (β × Bool)} {holds : β → Prop}
    (hstep : ∀ acc, holds acc → Passes good (step acc) fun result => holds result.1) {acc : β}
    (hacc : holds acc) : Passes good (iterate step acc) holds := by
  intro s hs
  fun_induction iterate step acc s with
  | case1 acc s result h ih =>
    obtain ⟨hresult, hs'⟩ := hstep acc hacc s hs
    exact ih hresult hs'
  | case2 acc s result h => exact hstep acc hacc s hs

theorem passes_peek : Passes good peek (Lexeme.NamesOnly good) := fun _ hs => ⟨hs.current, hs⟩

theorem passes_peekSecond : Passes good peekSecond fun _ => True := fun _ hs => ⟨trivial, hs⟩

theorem passes_currentSpan : Passes good currentSpan fun _ => True := fun _ hs => ⟨trivial, hs⟩

theorem passes_spanFrom (start : Span) : Passes good (spanFrom start) fun _ => True :=
  fun _ hs => ⟨trivial, hs⟩

theorem passes_afterDedent : Passes good afterDedent fun _ => True := fun _ hs => ⟨trivial, hs⟩

theorem passes_advance : Passes good advance fun _ => True := fun _ hs => ⟨trivial, hs.advance⟩

theorem passes_complain (message : String) : Passes good (complain message) fun _ => True :=
  fun _ hs => ⟨trivial, hs⟩

theorem passes_complainWithHelp (message help : String) :
    Passes good (complainWithHelp message help) fun _ => True := fun _ hs => ⟨trivial, hs⟩

theorem passes_eat (lexeme : Lexeme) : Passes good (eat lexeme) fun _ => True :=
  passes_peek.bind fun _ _ => .ite _ (passes_advance.bind fun _ _ => passes_pure trivial)
    (passes_pure trivial)

theorem passes_expect (lexeme : Lexeme) : Passes good (expect lexeme) fun _ => True :=
  passes_currentSpan.bind fun _ _ => passes_peek.bind fun _ _ => .ite _
    (passes_advance.bind fun _ _ => passes_pure trivial)
    ((passes_complain _).bind fun _ _ => passes_pure trivial)

theorem passes_expectIdent : Passes good expectIdent fun _ => True := by
  refine passes_peek.bind fun found _ => ?_
  split
  · exact passes_advance.bind fun _ _ => passes_pure trivial
  · exact (passes_complain _).bind fun _ _ => passes_pure trivial

theorem passes_skipNewlines : Passes good skipNewlines fun _ => True :=
  passes_iterate (fun _ _ => (passes_eat _).bind fun _ _ => passes_pure trivial) trivial

theorem passes_skipLine : Passes good skipLine fun _ => True := by
  refine passes_iterate (fun _ _ => passes_peek.bind fun found _ => ?_) trivial
  split
  · exact passes_pure trivial
  · exact passes_pure trivial
  · exact passes_pure trivial
  · exact passes_advance.bind fun _ _ => passes_pure trivial

theorem passes_commaSeparated (hp : Passes good p holds) :
    Passes good (commaSeparated p) fun elements => ∀ a ∈ elements, holds a := by
  have hround : ∀ sofar : Array α, (∀ a ∈ sofar, holds a) → Passes good (do
      let next ← p
      return (sofar.push next, ← eat .comma)) fun result => ∀ a ∈ result.1, holds a :=
    fun sofar hsofar => hp.bind fun next hnext => (passes_eat _).bind fun _ _ =>
      passes_pure (Array.forall_mem_push.2 ⟨hnext, hsofar⟩)
  refine (passes_iterate hround (by simp)).bind fun elements helements => passes_pure ?_
  exact fun a ha => helements a (Array.mem_toList_iff.1 ha)

theorem passes_parenthesised (hp : Passes good p holds) :
    Passes good (parenthesised p) fun result => ∀ a ∈ result.2, holds a := by
  refine (passes_expect _).bind fun start _ => passes_peek.bind fun _ _ => ?_
  have hclose : ∀ elements : List α, (∀ a ∈ elements, holds a) →
      Passes good (expect .rightParen >>= fun _ => pure (start, elements)) fun result =>
        ∀ a ∈ result.2, holds a :=
    fun _ helements => (passes_expect _).bind fun _ _ => passes_pure helements
  refine .ite _ ((passes_return []).bind ?_) ((passes_commaSeparated hp).bind hclose)
  rintro _ rfl
  exact hclose [] (by simp)

theorem passes_endStatement : Passes good endStatement fun _ => True := by
  refine (passes_eat _).bind fun _ _ => .ite _ (passes_pure trivial) ?_
  exact passes_peek.bind fun _ _ => passes_afterDedent.bind fun _ _ => .ite _ (passes_pure trivial)
    ((passes_complain _).bind fun _ _ => passes_skipLine.bind fun _ _ => (passes_eat _).bind
      fun _ _ => passes_pure trivial)

theorem passes_findElse : Passes good findElse fun _ => True := by
  refine passes_peek.bind fun found _ => ?_
  split
  · exact passes_pure trivial
  · exact passes_peekSecond.bind fun _ _ => .ite _
      (passes_advance.bind fun _ _ => passes_pure trivial) (passes_pure trivial)
  · exact passes_pure trivial

theorem passes_block {p : Parser Tree} {holds : Tree → Prop} (hp : Passes good p holds) :
    Passes good (block p) fun items => ∀ t ∈ items, holds t := by
  have hround : ∀ sofar : Array Tree, (∀ t ∈ sofar, holds t) → Passes good (do
      skipNewlines
      if ← eat .dedent then return (sofar, false)
      else if (← peek) = .eof then return (sofar, false)
      else
        let next ← p
        endStatement
        return (sofar.push next, true)) fun result => ∀ t ∈ result.1, holds t :=
    fun sofar hsofar => passes_skipNewlines.bind fun _ _ => (passes_eat _).bind fun _ _ =>
      .ite _ (passes_pure hsofar) (passes_peek.bind fun _ _ => .ite _ (passes_pure hsofar)
        (hp.bind fun t ht => passes_endStatement.bind fun _ _ =>
          passes_pure (Array.forall_mem_push.2 ⟨ht, hsofar⟩)))
  exact (passes_iterate hround (by simp)).bind fun items hitems =>
    passes_pure fun t ht => hitems t (Array.mem_toList_iff.1 ht)

/-! ## Trees -/

end Parser

/-- What holds of trees, by the room there was for nesting when they were read, if all names that are called
are good: `inner` of expressions and bodies, and `item` of what stands in a body or at the top level, with
the room that was left for the expressions and bodies in it. -/
structure Tree.BuiltUp (good : String → Prop) (inner item : Nat → Tree → Prop) : Prop where
  leaf {room span shape} (h : shape.children = []) : inner room (.node span shape)
  enclosed {room t} (h : inner room t) : inner (room + 1) t
  infixOp {room span op left right} (hleft : inner (room + 1) left) (hright : inner room right) :
    inner (room + 1) (.node span (.infixOp op left right))
  negate {room span t} (h : inner room t) : inner (room + 1) (.node span (.negate t))
  call {room span listSpan name ts} (hname : good name) (h : ∀ t ∈ ts, inner room t) :
    inner (room + 1) (.node span (.call name (.node listSpan (.list ts))))
  body {room span ts} (h : ∀ t ∈ ts, item room t) : inner (room + 1) (.node span (.list ts))
  expression {room t} (h : inner room t) : item room t
  statement {room span shape} (h : ∀ t ∈ shape.children, inner room t)
    (hcall : ∀ name arguments, shape ≠ .call name arguments) : item room (.node span shape)

namespace Parser

section

variable {good : String → Prop} {inner item : Nat → Tree → Prop} {room : Nat}
  {expr body' : Parser Tree} {expression' : Nat → Parser Tree} (h : Tree.BuiltUp good inner item)
include h

theorem passes_callOf (hexpr : Passes good expr (inner room)) {name : String} (hname : good name)
    (start : Span) : Passes good (callOf expr name start) (inner (room + 1)) :=
  (passes_parenthesised hexpr).bind fun _ hresult => (passes_spanFrom _).bind
    fun _ _ => (passes_spanFrom _).bind fun _ _ => passes_pure (h.call hname hresult)

theorem passes_unexpected (found : Lexeme) (start : Span) : Passes good (do
    complain ("expected expression, found " ++ found.description)
    match found with
    | .newline | .eof | .dedent | .indent => pure ()
    | _ => advance
    return missing start) (inner room) := by
  have hend : inner room (missing start) := h.leaf rfl
  refine (passes_complain _).bind fun _ _ => ?_
  split
  · exact (passes_return ()).bind fun _ _ => passes_pure hend
  · exact (passes_return ()).bind fun _ _ => passes_pure hend
  · exact (passes_return ()).bind fun _ _ => passes_pure hend
  · exact (passes_return ()).bind fun _ _ => passes_pure hend
  · exact passes_advance.bind fun _ _ => passes_pure hend

theorem passes_primary (hexpr : Passes good expr (inner room)) :
    Passes good (primary expr) (inner (room + 1)) := by
  refine passes_currentSpan.bind fun start _ => passes_peek.bind fun found hfound => ?_
  cases found with
  | integer | floating => exact passes_advance.bind fun _ _ => passes_pure (h.leaf rfl)
  | ident name =>
    exact passes_advance.bind fun _ _ => passes_peek.bind fun _ _ =>
      .ite _ (passes_callOf h hexpr (hfound name rfl) _) (passes_pure (h.leaf rfl))
  | leftParen =>
    exact passes_advance.bind fun _ _ => hexpr.bind fun _ ht => (passes_expect _).bind
      fun _ _ => passes_pure (h.enclosed ht)
  | _ => exact passes_unexpected h _ start

theorem passes_operand (hexpr : ∀ least, Passes good (expression' least) (inner room)) :
    Passes good (operand expression') (inner (room + 1)) :=
  passes_peek.bind fun _ _ => .ite _ (passes_currentSpan.bind fun _ _ => passes_advance.bind
    fun _ _ => (hexpr _).bind fun _ ht => passes_pure (h.negate ht)) (passes_primary h (hexpr 0))

theorem passes_infixStep (hexpr : ∀ least, Passes good (expression' least) (inner room)) (least : Nat)
    {acc : Tree × Bool} (hacc : inner (room + 1) acc.1) :
    Passes good (infixStep expression' least acc) fun result => inner (room + 1) result.1.1 := by
  refine passes_peek.bind fun found _ => ?_
  split
  · exact passes_pure hacc
  · next op _ =>
    have hgo : Passes good (do
        advance
        let right ← expression' op.power.2
        let tree := Tree.node (acc.1.span.merge right.span) (.infixOp op acc.1 right)
        return ((tree, op.isComparison), true)) fun result => inner (room + 1) result.1.1 :=
      passes_advance.bind fun _ _ => (hexpr _).bind fun _ hright =>
        passes_pure (h.infixOp hacc hright)
    exact .ite _ (passes_pure hacc)
      (.ite _ ((passes_complainWithHelp _ _).bind fun _ _ => hgo) hgo)

theorem passes_expression (room least : Nat) : Passes good (expression room least) (inner room) := by
  induction room generalizing least with
  | zero =>
    exact (passes_complainWithHelp _ _).bind fun _ _ => passes_currentSpan.bind fun span _ =>
      passes_pure (h.leaf rfl)
  | succ room ih =>
    exact (passes_operand h ih).bind fun first hfirst =>
      (passes_iterate (fun acc hacc => passes_infixStep h ih least hacc) hfirst).bind
        fun result hresult => passes_pure hresult

/-- What has been read is made into a statement. -/
theorem passes_node (start : Span) {shape : Shape Tree} (hchildren : ∀ t ∈ shape.children, inner room t)
    (hcall : ∀ name arguments, shape ≠ .call name arguments) :
    Passes good (spanFrom start >>= fun span => pure (Tree.node span shape)) (item room) :=
  (passes_spanFrom start).bind fun _ _ => passes_pure (h.statement hchildren hcall)

theorem passes_fnDef (hbody : Passes good body' (inner room)) :
    Passes good (fnDef body') (item room) := by
  refine (passes_expect _).bind fun _ _ => passes_expectIdent.bind fun _ _ =>
    (passes_parenthesised passes_expectIdent).bind fun _ _ => hbody.bind fun t ht =>
      passes_node h _ ?_ nofun
  exact fun u hu => List.mem_singleton.1 hu ▸ ht

theorem passes_ifElse (hexpr : Passes good expr (inner room)) (hbody : Passes good body' (inner room)) :
    Passes good (ifElse expr body') (item room) := by
  refine (passes_expect _).bind fun start _ => hexpr.bind fun condition hcondition =>
    hbody.bind fun thenBody hthen => passes_findElse.bind fun _ _ => ?_
  have hnode : ∀ elseBody : Option Tree, (∀ t ∈ elseBody, inner room t) →
      Passes good (spanFrom start >>= fun span =>
        pure (Tree.node span (.ifElse condition thenBody elseBody))) (item room) := by
    intro elseBody helse
    refine passes_node h _ (fun t ht => ?_) nofun
    simp only [Shape.children, List.mem_cons, Option.mem_toList] at ht
    rcases ht with rfl | rfl | ht
    · exact hcondition
    · exact hthen
    · exact helse t ht
  have hsome : Passes good (some <$> body') fun found => ∀ t ∈ found, inner room t := by
    refine hbody.map fun t ht => ?_
    rintro _ ⟨⟩
    exact ht
  refine .ite _ ((passes_expect _).bind fun _ _ => hsome.bind hnode) ((passes_return none).bind ?_)
  rintro _ rfl
  exact hnode none (by simp)

theorem passes_forLoop (hexpr : Passes good expr (inner room)) (hbody : Passes good body' (inner room)) :
    Passes good (forLoop expr body') (item room) := by
  refine (passes_expect _).bind fun _ _ => passes_expectIdent.bind fun _ _ =>
    (passes_expect _).bind fun _ _ => hexpr.bind fun bound hbound => hbody.bind fun t ht =>
      passes_node h _ ?_ nofun
  intro u hu
  rcases List.mem_cons.1 hu with rfl | hu
  · exact hbound
  · rw [List.mem_singleton.1 hu]
    exact ht

theorem passes_letVar (hexpr : Passes good expr (inner room)) :
    Passes good (letVar expr) (item room) := by
  refine passes_currentSpan.bind fun _ _ => passes_advance.bind fun _ _ =>
    passes_expectIdent.bind fun _ _ => (passes_expect _).bind fun _ _ => hexpr.bind fun t ht =>
      passes_node h _ ?_ nofun
  exact fun u hu => List.mem_singleton.1 hu ▸ ht

theorem passes_giveBack (hexpr : Passes good expr (inner room)) :
    Passes good (giveBack expr) (item room) := by
  refine passes_currentSpan.bind fun _ _ => passes_advance.bind fun _ _ => hexpr.bind fun t ht =>
    passes_node h _ ?_ nofun
  exact fun u hu => List.mem_singleton.1 hu ▸ ht

theorem passes_setVar (hexpr : Passes good expr (inner room)) (name : String) :
    Passes good (setVar expr name) (item room) := by
  refine passes_currentSpan.bind fun _ _ => passes_advance.bind fun _ _ => passes_advance.bind
    fun _ _ => hexpr.bind fun t ht => passes_node h _ ?_ nofun
  exact fun u hu => List.mem_singleton.1 hu ▸ ht

theorem passes_statement (hexpr : Passes good expr (inner room))
    (hbody : Passes good body' (inner room)) : Passes good (statement expr body') (item room) := by
  have hitem : Passes good expr (item room) := fun s hs => (hexpr s hs).imp_left h.expression
  refine passes_peek.bind fun found _ => ?_
  split
  · exact passes_letVar h hexpr
  · exact passes_giveBack h hexpr
  · exact passes_ifElse h hexpr hbody
  · exact passes_forLoop h hexpr hbody
  · exact (passes_complainWithHelp _ _).bind fun _ _ => passes_fnDef h hbody
  · exact passes_peekSecond.bind fun _ _ => .ite _ (passes_setVar h hexpr _) hitem
  · exact hitem

theorem passes_body (room : Nat) : Passes good (body room) (inner room) := by
  induction room with
  | zero =>
    exact passes_currentSpan.bind fun _ _ => (passes_eat _).bind fun _ _ =>
      (passes_complainWithHelp _ _).bind fun _ _ => passes_pure (h.leaf rfl)
  | succ room ih =>
    have hitem := passes_statement h (passes_expression h room 0) ih
    have hnode : ∀ (start : Span) (ts : List Tree), (∀ t ∈ ts, item room t) →
        Passes good (spanFrom start >>= fun span => pure (Tree.node span (.list ts))) (inner (room + 1)) :=
      fun start _ hts => (passes_spanFrom start).bind fun _ _ => passes_pure (h.body hts)
    refine passes_currentSpan.bind fun start _ => (passes_eat _).bind fun _ _ =>
      (passes_eat _).bind fun _ _ => ?_
    refine .ite _ ((passes_expect _).bind fun _ _ => (passes_block hitem).bind fun items hitems =>
      hnode start items hitems) (hitem.bind fun t ht => ?_)
    refine (passes_return [t]).bind ?_
    rintro _ rfl
    exact hnode start [t] (List.forall_mem_singleton.2 ht)

theorem passes_topLevelStep {sofar : Array Tree} (hsofar : ∀ t ∈ sofar, item maxNesting t) :
    Passes good (topLevelStep sofar) fun result => ∀ t ∈ result.1, item maxNesting t := by
  have hexpr := passes_expression h maxNesting 0
  have hbody := passes_body h maxNesting
  refine passes_skipNewlines.bind fun _ _ => passes_peek.bind fun found _ => ?_
  split
  · exact passes_pure hsofar
  · exact (passes_complain _).bind fun _ _ => passes_advance.bind fun _ _ => passes_pure hsofar
  · exact (passes_complain _).bind fun _ _ => passes_advance.bind fun _ _ => passes_pure hsofar
  · exact (passes_fnDef h hbody).bind fun t ht => passes_endStatement.bind fun _ _ =>
      passes_pure (Array.forall_mem_push.2 ⟨ht, hsofar⟩)
  · exact (passes_statement h hexpr hbody).bind fun t ht =>
      passes_endStatement.bind fun _ _ => passes_pure (Array.forall_mem_push.2 ⟨ht, hsofar⟩)

/-- A whole text is read into a program of good items. -/
theorem passes_program : Passes good program fun t =>
    ∃ span items, t = .node span (.program items) ∧ ∀ u ∈ items, item maxNesting u := by
  refine passes_currentSpan.bind fun start _ =>
    (passes_iterate (fun _ hsofar => passes_topLevelStep h hsofar) (by simp)).bind
      fun items hitems => (passes_spanFrom start).bind fun span _ =>
        passes_pure ⟨span, items.toList, rfl, fun u hu => hitems u (Array.mem_toList_iff.1 hu)⟩

end

end Parser

end Abacus
