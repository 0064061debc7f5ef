import Abacus.Proofs.Tree.Abreast
import Abacus.Proofs.Tree.Unplaced

/-!
# Parsing looks at lexemes only

Where the tokens of a text stand decides nothing: from the same lexemes at other places a parser makes
the same tree at other places, and it complains about the same in the same order.

* `Diagnostic.unplaced` — what a complaint says;
* `TokenStream.Alike` — two streams of the same lexemes;
* `Parser.Agrees` — two parsers that give the same, up to places, from streams that are alike;
* `Parser.agrees_expression`, `Parser.agrees_body`, `Parser.agrees_program` — all parsers do.
-/

namespace Abacus

/-- What a complaint says, at no place. -/
def Diagnostic.unplaced (d : Diagnostic) : Diagnostic := { d with span := Span.none }

namespace TokenStream

/-- The streams have the same lexemes, and the same has been complained about so far. -/
structure Alike (s s' : TokenStream) : Prop where
  lexemes : s.lexemes = s'.lexemes
  previous : s.previous?.map Token.lexeme = s'.previous?.map Token.lexeme
  complaints : s.complaints.toList.map Diagnostic.unplaced =
    s'.complaints.toList.map Diagnostic.unplaced

variable {s s' : TokenStream}

theorem lexeme_current (s : TokenStream) : s.current.lexeme = s.lexemes.headD .eof := by
  cases hrest : s.rest <;> simp [current, lexemes, hrest]

theorem lexeme_second (s : TokenStream) : s.second.lexeme = (s.lexemes.drop 1).headD .eof := by
  unfold second lexemes
  rw [← List.map_drop]
  cases s.rest.drop 1 <;> rfl

theorem lexemes_advance (s : TokenStream) : s.advance.lexemes = s.lexemes.tail := by
  rw [lexemes, rest_advance, lexemes, List.map_tail]

namespace Alike

theorem length_eq (h : s.Alike s') : s.rest.length = s'.rest.length := by
  have hlength := congrArg List.length h.lexemes
  simpa [TokenStream.lexemes] using hlength

theorem current (h : s.Alike s') : s.current.lexeme = s'.current.lexeme := by
  rw [lexeme_current, lexeme_current, h.lexemes]

theorem second (h : s.Alike s') : s.second.lexeme = s'.second.lexeme := by
  rw [lexeme_second, lexeme_second, h.lexemes]

theorem advance (h : s.Alike s') : s.advance.Alike s'.advance := by
  refine ⟨?_, ?_, ?_⟩
  · rw [lexemes_advance, lexemes_advance, h.lexemes]
  · have hlexemes := h.lexemes
    unfold TokenStream.lexemes at hlexemes
    unfold TokenStream.advance
    cases hrest : s.rest with
    | nil =>
      rw [hrest, List.map_nil, eq_comm, List.map_eq_nil_iff] at hlexemes
      rw [hlexemes]
      exact h.previous
    | cons t rest =>
      rw [hrest, List.map_cons, eq_comm, List.map_eq_cons_iff] at hlexemes
      obtain ⟨t', rest', hrest', hlexeme, -⟩ := hlexemes
      rw [hrest']
      exact congrArg some hlexeme.symm
  · rw [complaints_advance, complaints_advance, h.complaints]

theorem complain (h : s.Alike s') {d d' : Diagnostic} (hd : d.unplaced = d'.unplaced) :
    (s.complain d).Alike (s'.complain d') where
  lexemes := h.lexemes
  previous := h.previous
  complaints := by simp [TokenStream.complain, h.complaints, hd]

end Alike

theorem lexemes_ofTokens (tokens : List Token) :
    (ofTokens tokens).lexemes = (tokens.map Token.lexeme).takeWhile (· ≠ .eof) := by
  rw [List.takeWhile_map]
  rfl

/-- Tokens of the same lexemes make streams that are alike. -/
theorem alike_ofTokens {tokens tokens' : List Token}
    (h : tokens.map Token.lexeme = tokens'.map Token.lexeme) :
    (ofTokens tokens).Alike (ofTokens tokens') where
  lexemes := by rw [lexemes_ofTokens, lexemes_ofTokens, h]
  previous := rfl
  complaints := rfl

end TokenStream

namespace Parser

variable {α β γ δ ε : Type} {f : α → δ} {g : β → ε} {p q : Parser α} {a b : α}

/-- From streams that are alike the two parsers give results of which `f` shows the same, and leave
streams that are alike. -/
def Agrees (f : α → δ) (p q : Parser α) : Prop :=
  ∀ s s', s.Alike s' → f (p s).1 = f (q s').1 ∧ (p s).2.Alike (q s').2

/-- Nothing is shown of a result. -/
def Hidden : α → Unit := fun _ => ()

/-! ## Putting parsers together -/

theorem Agrees.bind {next next' : α → Parser β} (h : Agrees f p q)
    (hnext : ∀ a b, f a = f b → Agrees g (next a) (next' b)) :
    Agrees g (p >>= next) (q >>= next') := by
  intro s s' hs
  obtain ⟨hresult, hs'⟩ := h s s' hs
  exact hnext _ _ hresult _ _ hs'

/-- The result of the first parser is the same. -/
theorem Agrees.then {next next' : α → Parser β} (h : Agrees id p q)
    (hnext : ∀ a, Agrees g (next a) (next' a)) : Agrees g (p >>= next) (q >>= next') := by
  refine h.bind fun a b hab => ?_
  obtain rfl : a = b := hab
  exact hnext a

theorem Agrees.map {ψ : α → β} (h : Agrees f p q) (hψ : ∀ a b, f a = f b → g (ψ a) = g (ψ b)) :
    Agrees g (ψ <$> p) (ψ <$> q) := by
  intro s s' hs
  obtain ⟨hresult, hs'⟩ := h s s' hs
  exact ⟨hψ _ _ hresult, hs'⟩

theorem agrees_pure (h : f a = f b) : Agrees f (pure a) (pure b) := fun _ _ hs => ⟨h, hs⟩

theorem Agrees.ite {p' q' : Parser α} (c : Prop) [Decidable c] (h : Agrees f p q)
    (h' : Agrees f p' q') : Agrees f (if c then p else p') (if c then q else q') := by
  split
  · exact h
  · exact h'

/-- Loops whose rounds agree. They go round equally often, since the streams stay equally long. -/
theorem agrees_iterate {step step' : α → Parser (α × Bool)}
    (hstep : ∀ a b, f a = f b →
      Agrees (fun r : α × Bool => (f r.1, r.2)) (step a) (step' b)) (h : f a = f b) :
    Agrees f (iterate step a) (iterate step' b) := by
  intro s
  fun_induction iterate step a s generalizing b
  case case1 a s result hgo ih =>
    intro s' hs
    obtain ⟨hresult, hafter⟩ := hstep a b h s s' hs
    obtain ⟨hvalue, hflag⟩ := Prod.mk.inj hresult
    have hgo' : (step' b s').1.2 = true ∧ (step' b s').2.rest.length < s'.rest.length := by
      rw [← hflag, ← hafter.length_eq, ← hs.length_eq]
      exact hgo
    rw [iterate_go hgo'.1 hgo'.2]
    exact ih hvalue _ hafter
  case case2 a s result hstop =>
    intro s' hs
    obtain ⟨hresult, hafter⟩ := hstep a b h s s' hs
    obtain ⟨hvalue, hflag⟩ := Prod.mk.inj hresult
    have hstop' : ¬ ((step' b s').1.2 = true ∧ (step' b s').2.rest.length < s'.rest.length) := by
      rw [← hflag, ← hafter.length_eq, ← hs.length_eq]
      exact hstop
    rw [iterate, dif_neg hstop']
    exact ⟨hvalue, hafter⟩

/-! ## Steps -/

theorem agrees_peek : Agrees id peek peek := fun _ _ hs => ⟨hs.current, hs⟩

theorem agrees_peekSecond : Agrees id peekSecond peekSecond := fun _ _ hs => ⟨hs.second, hs⟩

theorem agrees_currentSpan : Agrees Hidden currentSpan currentSpan := fun _ _ hs => ⟨rfl, hs⟩

theorem agrees_spanFrom (start start' : Span) : Agrees Hidden (spanFrom start) (spanFrom start') :=
  fun _ _ hs => ⟨rfl, hs⟩

theorem agrees_afterDedent : Agrees id afterDedent afterDedent :=
  fun _ _ hs => ⟨congrArg (fun l => l == some Lexeme.dedent) hs.previous, hs⟩

theorem agrees_advance : Agrees id advance advance := fun _ _ hs => ⟨rfl, hs.advance⟩

theorem agrees_complain (message : String) : Agrees id (complain message) (complain message) :=
  fun _ _ hs => ⟨rfl, hs.complain rfl⟩

theorem agrees_complainWithHelp (message help : String) :
    Agrees id (complainWithHelp message help) (complainWithHelp message help) :=
  fun _ _ hs => ⟨rfl, hs.complain rfl⟩

theorem agrees_eat (lexeme : Lexeme) : Agrees id (eat lexeme) (eat lexeme) :=
  agrees_peek.then fun _ => .ite _ (agrees_advance.then fun _ => agrees_pure rfl) (agrees_pure rfl)

theorem agrees_expect (lexeme : Lexeme) : Agrees Hidden (expect lexeme) (expect lexeme) := by
  refine agrees_currentSpan.bind fun span span' _ => agrees_peek.then fun found => ?_
  exact .ite _ (agrees_advance.then fun _ => agrees_pure rfl)
    ((agrees_complain _).then fun _ => agrees_pure rfl)

theorem agrees_expectIdent : Agrees id expectIdent expectIdent := by
  refine agrees_peek.then fun found => ?_
  split
  · exact agrees_advance.then fun _ => agrees_pure rfl
  · exact (agrees_complain _).then fun _ => agrees_pure rfl

theorem agrees_skipNewlines : Agrees id skipNewlines skipNewlines :=
  agrees_iterate (fun _ _ _ => (agrees_eat _).then fun _ => agrees_pure rfl) rfl

theorem agrees_skipLine : Agrees id skipLine skipLine := by
  refine agrees_iterate (fun _ _ _ => agrees_peek.then fun found => ?_) rfl
  split
  · exact agrees_pure rfl
  · exact agrees_pure rfl
  · exact agrees_pure rfl
  · exact agrees_advance.then fun _ => agrees_pure rfl

theorem agrees_commaSeparated (h : Agrees f p q) :
    Agrees (List.map f) (commaSeparated p) (commaSeparated q) := by
  refine Agrees.bind (f := fun sofar : Array α => sofar.toList.map f)
    (agrees_iterate (fun sofar sofar' hsofar => ?_) rfl) fun _ _ hall => agrees_pure hall
  refine h.bind fun next next' hnext => (agrees_eat _).then fun _ => agrees_pure ?_
  rw [Array.toList_push, Array.toList_push, List.map_append, List.map_append, hsofar,
    List.map_singleton, List.map_singleton, hnext]

theorem agrees_parenthesised (h : Agrees f p q) :
    Agrees (fun r : Span × List α => r.2.map f) (parenthesised p) (parenthesised q) := by
  refine (agrees_expect _).bind fun start start' _ => agrees_peek.then fun found => ?_
  have hclose : ∀ elements elements' : List α, elements.map f = elements'.map f →
      Agrees (fun r : Span × List α => r.2.map f)
        (expect .rightParen >>= fun _ => pure (start, elements))
        (expect .rightParen >>= fun _ => pure (start', elements')) :=
    fun _ _ helements => (agrees_expect _).bind fun _ _ _ => agrees_pure helements
  exact .ite _ ((agrees_pure (f := List.map f) rfl).bind hclose)
    ((agrees_commaSeparated h).bind hclose)

theorem agrees_complainTooDeep : Agrees id complainTooDeep complainTooDeep :=
  agrees_complainWithHelp _ _

/-! ## Trees -/

open Abacus.Tree (unplaced)

section

variable {inner inner' : Parser Tree} {expression' expression'' : Nat → Parser Tree}

theorem unplaced_congr {span span' : Span} {shape shape' : Shape Tree}
    (h : shape.map unplaced = shape'.map unplaced) :
    unplaced (.node span shape) = unplaced (.node span' shape') := by
  rw [Tree.unplaced_node, Tree.unplaced_node, h]

/-- What has been read is made into a tree. -/
theorem agrees_node {start start' : Span} {shape shape' : Shape Tree}
    (h : shape.map unplaced = shape'.map unplaced) :
    Agrees unplaced (spanFrom start >>= fun span => pure (Tree.node span shape))
      (spanFrom start' >>= fun span => pure (Tree.node span shape')) :=
  (agrees_spanFrom _ _).bind fun _ _ _ => agrees_pure (unplaced_congr h)

theorem agrees_callOf (h : Agrees unplaced inner inner') (name : String) (start start' : Span) :
    Agrees unplaced (callOf inner name start) (callOf inner' name start') := by
  refine (agrees_parenthesised h).bind fun r r' hr => (agrees_spanFrom _ _).bind fun _ _ _ => ?_
  refine agrees_node (congrArg (Shape.call name) (unplaced_congr ?_))
  exact congrArg Shape.list hr

/-- What cannot start an expression is stepped over. -/
theorem agrees_missing (found : Lexeme) (start start' : Span) : Agrees unplaced (do
    match found with
    | .newline | .eof | .dedent | .indent => pure ()
    | _ => advance
    return missing start) (do
    match found with
    | .newline | .eof | .dedent | .indent => pure ()
    | _ => advance
    return missing start') := by
  have hmissing : unplaced (missing start) = unplaced (missing start') := rfl
  have hstay : Agrees id (pure () : Parser Unit) (pure ()) := agrees_pure rfl
  split
  · exact hstay.then fun _ => agrees_pure hmissing
  · exact hstay.then fun _ => agrees_pure hmissing
  · exact hstay.then fun _ => agrees_pure hmissing
  · exact hstay.then fun _ => agrees_pure hmissing
  · exact agrees_advance.then fun _ => agrees_pure hmissing

theorem agrees_unexpected (found : Lexeme) (start start' : Span) : Agrees unplaced (do
    complain ("expected expression, found " ++ found.description)
    match found with
    | .newline | .eof | .dedent | .indent => pure ()
    | _ => advance
    return missing start) (do
    complain ("expected expression, found " ++ found.description)
    match found with
    | .newline | .eof | .dedent | .indent => pure ()
    | _ => advance
    return missing start') :=
  (agrees_complain _).then fun _ => agrees_missing found start start'

theorem agrees_primary (h : Agrees unplaced inner inner') :
    Agrees unplaced (primary inner) (primary inner') := by
  refine agrees_currentSpan.bind fun start start' _ => agrees_peek.then fun found => ?_
  cases found with
  | integer | floating => exact agrees_advance.then fun _ => agrees_pure rfl
  | ident =>
    exact agrees_advance.then fun _ => agrees_peek.then fun _ =>
      .ite _ (agrees_callOf h _ _ _) (agrees_pure rfl)
  | leftParen =>
    exact agrees_advance.then fun _ => h.bind fun _ _ htree => (agrees_expect _).bind fun _ _ _ =>
      agrees_pure htree
  | _ => exact agrees_unexpected _ start start'

theorem agrees_operand (h : ∀ least, Agrees unplaced (expression' least) (expression'' least)) :
    Agrees unplaced (operand expression') (operand expression'') := by
  refine agrees_peek.then fun found => .ite _ ?_ (agrees_primary (h 0))
  refine agrees_currentSpan.bind fun _ _ _ => agrees_advance.then fun _ => ?_
  exact (h _).bind fun _ _ htree => agrees_pure (unplaced_congr (congrArg Shape.negate htree))

/-- What is shown of a chain of operators: its tree, and whether the last one compares. -/
def unplacedChain (chain : Tree × Bool) : Tree × Bool := (chain.1.unplaced, chain.2)

theorem agrees_infixStep (h : ∀ least, Agrees unplaced (expression' least) (expression'' least))
    (least : Nat) {chain chain' : Tree × Bool} (hchain : unplacedChain chain = unplacedChain chain') :
    Agrees (fun r : (Tree × Bool) × Bool => (unplacedChain r.1, r.2))
      (infixStep expression' least chain) (infixStep expression'' least chain') := by
  obtain ⟨left, compared⟩ := chain
  obtain ⟨left', compared'⟩ := chain'
  obtain ⟨hleft, rfl⟩ : left.unplaced = left'.unplaced ∧ compared = compared' :=
    Prod.mk.inj hchain
  have hstay : unplacedChain (left, compared) = unplacedChain (left', compared) := hchain
  refine agrees_peek.then fun found => ?_
  split
  · exact agrees_pure (congrArg (·, false) hstay)
  · next op _ =>
    have hgo : Agrees (fun r : (Tree × Bool) × Bool => (unplacedChain r.1, r.2)) (do
        advance
        let right ← expression' op.power.2
        let tree := Tree.node (left.span.merge right.span) (.infixOp op left right)
        return ((tree, op.isComparison), true)) (do
        advance
        let right ← expression'' op.power.2
        let tree := Tree.node (left'.span.merge right.span) (.infixOp op left' right)
        return ((tree, op.isComparison), true)) := by
      refine agrees_advance.then fun _ => (h _).bind fun right right' hright => agrees_pure ?_
      have hshape : (Shape.infixOp op left right).map unplaced =
          (Shape.infixOp op left' right').map unplaced := by
        simp only [Shape.map, hleft, hright]
      exact congrArg (fun tree : Tree => ((tree, op.isComparison), true)) (unplaced_congr hshape)
    exact .ite _ (agrees_pure (congrArg (·, false) hstay))
      (.ite _ ((agrees_complainWithHelp _ _).then fun _ => hgo) hgo)

/-- An expression says the same wherever it stands. -/
theorem agrees_expression (room least : Nat) :
    Agrees unplaced (expression room least) (expression room least) := by
  induction room generalizing least with
  | zero =>
    exact agrees_complainTooDeep.then fun _ => agrees_currentSpan.bind fun _ _ _ => agrees_pure rfl
  | succ room ih =>
    refine (agrees_operand ih).bind fun first first' hfirst => ?_
    have hstart : unplacedChain (first, false) = unplacedChain (first', false) :=
      congrArg (·, false) hfirst
    refine Agrees.bind (agrees_iterate (fun _ _ => agrees_infixStep ih least) hstart) ?_
    exact fun _ _ hchain => agrees_pure (congrArg Prod.fst hchain)

end

/-! ## Statements -/

section

variable {expr expr' body' body'' item item' : Parser Tree}

theorem agrees_endStatement : Agrees id endStatement endStatement := by
  refine (agrees_eat _).then fun _ => .ite _ (agrees_pure rfl) ?_
  refine agrees_peek.then fun _ => agrees_afterDedent.then fun _ => .ite _ (agrees_pure rfl) ?_
  exact (agrees_complain _).then fun _ => agrees_skipLine.then fun _ => (agrees_eat _).then fun _ =>
    agrees_pure rfl

theorem agrees_fnDef (hbody : Agrees unplaced body' body'') :
    Agrees unplaced (fnDef body') (fnDef body'') := by
  refine (agrees_expect _).bind fun _ _ _ => agrees_expectIdent.then fun name => ?_
  refine (agrees_parenthesised agrees_expectIdent).bind fun r r' hr => ?_
  have hnames : r.2 = r'.2 := by simpa using hr
  refine hbody.bind fun inner inner' hinner => agrees_node ?_
  simp only [Shape.map, hnames, hinner]

theorem agrees_findElse : Agrees id findElse findElse := by
  refine agrees_peek.then fun found => ?_
  split
  · exact agrees_pure rfl
  · exact agrees_peekSecond.then fun _ => .ite _ (agrees_advance.then fun _ => agrees_pure rfl)
      (agrees_pure rfl)
  · exact agrees_pure rfl

theorem agrees_ifElse (hexpr : Agrees unplaced expr expr') (hbody : Agrees unplaced body' body'') :
    Agrees unplaced (ifElse expr body') (ifElse expr' body'') := by
  refine (agrees_expect _).bind fun start start' _ => hexpr.bind fun condition condition' hc => ?_
  refine hbody.bind fun thenBody thenBody' hthen => agrees_findElse.then fun found => ?_
  have hdone : ∀ elseBody elseBody' : Option Tree,
      elseBody.map unplaced = elseBody'.map unplaced → Agrees unplaced
        (spanFrom start >>= fun span => pure (.node span (.ifElse condition thenBody elseBody)))
        (spanFrom start' >>= fun span => pure (.node span (.ifElse condition' thenBody' elseBody'))) :=
    fun _ _ helse => agrees_node (by simp only [Shape.map, hc, hthen, helse])
  refine .ite _ ?_ ((agrees_pure (f := Option.map unplaced) rfl).bind hdone)
  refine (agrees_expect _).bind fun _ _ _ => ?_
  exact (hbody.map (g := Option.map unplaced) fun _ _ => congrArg some).bind hdone

theorem agrees_forLoop (hexpr : Agrees unplaced expr expr') (hbody : Agrees unplaced body' body'') :
    Agrees unplaced (forLoop expr body') (forLoop expr' body'') := by
  refine (agrees_expect _).bind fun _ _ _ => agrees_expectIdent.then fun index => ?_
  refine (agrees_expect _).bind fun _ _ _ => hexpr.bind fun bound bound' hbound => ?_
  refine hbody.bind fun inner inner' hinner => agrees_node ?_
  simp only [Shape.map, hbound, hinner]

theorem agrees_letVar (hexpr : Agrees unplaced expr expr') :
    Agrees unplaced (letVar expr) (letVar expr') := by
  refine agrees_currentSpan.bind fun _ _ _ => agrees_advance.then fun _ => ?_
  refine agrees_expectIdent.then fun name => (agrees_expect _).bind fun _ _ _ => ?_
  exact hexpr.bind fun _ _ hvalue => agrees_node (congrArg (Shape.letVar name) hvalue)

theorem agrees_giveBack (hexpr : Agrees unplaced expr expr') :
    Agrees unplaced (giveBack expr) (giveBack expr') := by
  refine agrees_currentSpan.bind fun _ _ _ => agrees_advance.then fun _ => ?_
  exact hexpr.bind fun _ _ hvalue => agrees_node (congrArg Shape.giveBack hvalue)

theorem agrees_setVar (hexpr : Agrees unplaced expr expr') (name : String) :
    Agrees unplaced (setVar expr name) (setVar expr' name) := by
  refine agrees_currentSpan.bind fun _ _ _ => agrees_advance.then fun _ => ?_
  refine agrees_advance.then fun _ => hexpr.bind fun _ _ hvalue => ?_
  exact agrees_node (congrArg (Shape.setVar name) hvalue)

theorem agrees_statement (hexpr : Agrees unplaced expr expr')
    (hbody : Agrees unplaced body' body'') :
    Agrees unplaced (statement expr body') (statement expr' body'') := by
  refine agrees_peek.then fun found => ?_
  split
  · exact agrees_letVar hexpr
  · exact agrees_giveBack hexpr
  · exact agrees_ifElse hexpr hbody
  · exact agrees_forLoop hexpr hbody
  · exact (agrees_complainWithHelp _ _).then fun _ => agrees_fnDef hbody
  · exact agrees_peekSecond.then fun _ => .ite _ (agrees_setVar hexpr _) hexpr
  · exact hexpr

theorem agrees_block (hitem : Agrees unplaced item item') :
    Agrees (List.map unplaced) (block item) (block item') := by
  refine Agrees.bind (f := fun sofar : Array Tree => sofar.toList.map unplaced)
    (agrees_iterate (fun sofar sofar' hsofar => ?_) rfl) fun _ _ hall => agrees_pure hall
  have hstop : ∀ go : Bool, Agrees (fun r : Array Tree × Bool => (r.1.toList.map unplaced, r.2))
      (pure (sofar, go)) (pure (sofar', go)) := fun go => agrees_pure (congrArg (·, go) hsofar)
  refine agrees_skipNewlines.then fun _ => (agrees_eat _).then fun _ => .ite _ (hstop false) ?_
  refine agrees_peek.then fun _ => .ite _ (hstop false) ?_
  refine hitem.bind fun next next' hnext => agrees_endStatement.then fun _ => agrees_pure ?_
  simp only [Array.toList_push, List.map_append, hsofar, List.map_singleton, hnext]

/-- A body says the same wherever it stands. -/
theorem agrees_body (room : Nat) : Agrees unplaced (body room) (body room) := by
  induction room with
  | zero =>
    refine agrees_currentSpan.bind fun _ _ _ => (agrees_eat _).then fun _ => ?_
    exact agrees_complainTooDeep.then fun _ => agrees_pure rfl
  | succ room ih =>
    have hitem := agrees_statement (agrees_expression room 0) ih
    refine agrees_currentSpan.bind fun start start' _ => (agrees_eat _).then fun _ => ?_
    have hdone : ∀ items items' : List Tree, items.map unplaced = items'.map unplaced →
        Agrees unplaced (spanFrom start >>= fun span => pure (.node span (.list items)))
          (spanFrom start' >>= fun span => pure (.node span (.list items'))) :=
      fun _ _ hitems => agrees_node (congrArg Shape.list hitems)
    refine (agrees_eat _).then fun _ => .ite _ ?_ ?_
    · exact (agrees_expect _).bind fun _ _ _ => (agrees_block hitem).bind hdone
    · refine hitem.bind fun t t' ht => ?_
      exact (agrees_pure (f := List.map unplaced) (by simp [ht])).bind hdone

end

/-! ## Texts -/

theorem agrees_topLevelStep {sofar sofar' : Array Tree}
    (h : sofar.toList.map unplaced = sofar'.toList.map unplaced) :
    Agrees (fun r : Array Tree × Bool => (r.1.toList.map unplaced, r.2)) (topLevelStep sofar)
      (topLevelStep sofar') := by
  have hstay : ∀ go : Bool, Agrees (fun r : Array Tree × Bool => (r.1.toList.map unplaced, r.2))
      (pure (sofar, go)) (pure (sofar', go)) := fun go => agrees_pure (congrArg (·, go) h)
  have hitem : ∀ {item item' : Parser Tree}, Agrees unplaced item item' →
      Agrees (fun r : Array Tree × Bool => (r.1.toList.map unplaced, r.2))
        (item >>= fun t => endStatement >>= fun _ => pure (sofar.push t, true))
        (item' >>= fun t => endStatement >>= fun _ => pure (sofar'.push t, true)) := by
    intro item item' hitem
    refine hitem.bind fun t t' ht => agrees_endStatement.then fun _ => agrees_pure ?_
    simp only [Array.toList_push, List.map_append, h, List.map_singleton, ht]
  refine agrees_skipNewlines.then fun _ => agrees_peek.then fun found => ?_
  split
  · exact hstay false
  · exact (agrees_complain _).then fun _ => agrees_advance.then fun _ => hstay true
  · exact (agrees_complain _).then fun _ => agrees_advance.then fun _ => hstay true
  · exact hitem (agrees_fnDef (agrees_body _))
  · exact hitem (agrees_statement (agrees_expression _ _) (agrees_body _))

/-- A text says the same wherever its tokens stand. -/
theorem agrees_program : Agrees unplaced program program := by
  refine agrees_currentSpan.bind fun _ _ _ => ?_
  refine Agrees.bind (f := fun sofar : Array Tree => sofar.toList.map unplaced)
    (agrees_iterate (fun _ _ => agrees_topLevelStep) rfl) fun items items' hitems => ?_
  exact agrees_node (congrArg Shape.program hitems)

end Parser

theorem parseTokens_eq (tokens : List Token) : parseTokens tokens =
    if (Parser.program (TokenStream.ofTokens tokens)).2.complaints.isEmpty then
      .ok (Parser.program (TokenStream.ofTokens tokens)).1
    else .error (Parser.program (TokenStream.ofTokens tokens)).2.complaints.toList := rfl

end Abacus
