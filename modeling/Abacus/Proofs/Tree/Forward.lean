import Abacus.Proofs.Tree.Complaints

/-!
# Parsers go forward

A parser never goes back: what is left behind it is an end of what it was given, and its complaints come
behind the ones that were there. The complaints so far decide nothing.

* `Parser.Forward` — tokens are taken from the front and complaints are added at the back;
* `Parser.forward_expression` — reading an expression goes forward.
-/

namespace Abacus

/-- The stream with other complaints so far. -/
def TokenStream.withComplaints (s : TokenStream) (cs : Array Diagnostic) : TokenStream :=
  { s with complaints := cs }

namespace Parser

open TokenStream

variable {α β : Type} {p q : Parser α}

/-- Tokens are taken from the front, complaints are added at the back, and whatever has been complained
about before, the result is the same. -/
def Forward (p : Parser α) : Prop := ∀ s, ∃ taken added, s.rest = taken ++ (p s).2.rest ∧
  ∀ cs, p (s.withComplaints cs) = ((p s).1, (p s).2.withComplaints (cs ++ added))

/-! ## Putting parsers together -/

theorem forward_pure (a : α) : Forward (pure a) :=
  fun s => ⟨[], #[], rfl, fun cs => by rw [Array.append_empty]; rfl⟩

theorem Forward.bind {next : α → Parser β} (hp : Forward p) (hnext : ∀ a, Forward (next a)) :
    Forward (p >>= next) := by
  intro s
  obtain ⟨taken, added, hrest, hresult⟩ := hp s
  obtain ⟨taken', added', hrest', hresult'⟩ := hnext (p s).1 (p s).2
  refine ⟨taken ++ taken', added ++ added', ?_, fun cs => ?_⟩
  · rw [hrest, hrest', List.append_assoc]
    rfl
  · show next (p _).1 (p _).2 = _
    rw [hresult, hresult', Array.append_assoc]
    rfl

theorem Forward.ite (c : Prop) [Decidable c] (hp : Forward p) (hq : Forward q) :
    Forward (if c then p else q) := by
  split
  · exact hp
  · exact hq

/-- A loop goes round equally often, since the rounds leave equally many tokens. -/
theorem forward_iterate {step : β → Parser (β × Bool)} (hstep : ∀ acc, Forward (step acc)) (acc : β) :
    Forward (iterate step acc) := by
  intro s
  fun_induction iterate step acc s with
  | case1 acc s result h ih =>
    obtain ⟨taken, added, hrest, hresult⟩ := hstep acc s
    obtain ⟨taken', added', hrest', hresult'⟩ := ih
    refine ⟨taken ++ taken', added ++ added', ?_, fun cs => ?_⟩
    · rw [hrest, List.append_assoc, ← hrest']
    · rw [iterate, dif_pos (by rw [hresult]; exact h), hresult]
      dsimp only
      rw [hresult', Array.append_assoc]
  | case2 acc s result h =>
    obtain ⟨taken, added, hrest, hresult⟩ := hstep acc s
    refine ⟨taken, added, hrest, fun cs => ?_⟩
    rw [iterate, dif_neg (by rw [hresult]; exact h), hresult]

/-! ## Steps -/

theorem forward_peek : Forward peek :=
  fun s => ⟨[], #[], rfl, fun cs => by rw [Array.append_empty]; rfl⟩

theorem forward_currentSpan : Forward currentSpan :=
  fun s => ⟨[], #[], rfl, fun cs => by rw [Array.append_empty]; rfl⟩

theorem forward_spanFrom (start : Span) : Forward (spanFrom start) :=
  fun s => ⟨[], #[], rfl, fun cs => by rw [Array.append_empty]; rfl⟩

theorem forward_advance : Forward advance := by
  intro s
  refine ⟨s.rest.take 1, #[], ?_, fun cs => ?_⟩
  · show s.rest = s.rest.take 1 ++ s.advance.rest
    rw [rest_advance]
    cases s.rest <;> rfl
  · show ((), (s.withComplaints cs).advance) = ((), s.advance.withComplaints _)
    rw [Array.append_empty]
    obtain ⟨previous, rest, finish, complaints⟩ := s
    cases rest <;> rfl

theorem forward_complain (message : String) : Forward (complain message) :=
  fun s => ⟨[], #[.error message s.current.span], rfl, fun cs => by rw [Array.append_singleton]; rfl⟩

theorem forward_complainWithHelp (message help : String) : Forward (complainWithHelp message help) :=
  fun s => ⟨[], #[(Diagnostic.error message s.current.span).withHelp help], rfl,
    fun cs => by rw [Array.append_singleton]; rfl⟩

theorem forward_eat (lexeme : Lexeme) : Forward (eat lexeme) :=
  forward_peek.bind fun _ => .ite _ (forward_advance.bind fun _ => forward_pure _) (forward_pure _)

theorem forward_expect (lexeme : Lexeme) : Forward (expect lexeme) :=
  forward_currentSpan.bind fun _ => forward_peek.bind fun _ => .ite _
    (forward_advance.bind fun _ => forward_pure _) ((forward_complain _).bind fun _ => forward_pure _)

theorem forward_commaSeparated (hp : Forward p) : Forward (commaSeparated p) :=
  (forward_iterate (fun _ => hp.bind fun _ => (forward_eat _).bind fun _ => forward_pure _) #[]).bind
    fun _ => forward_pure _

theorem forward_parenthesised (hp : Forward p) : Forward (parenthesised p) := by
  refine (forward_expect _).bind fun _ => forward_peek.bind fun _ => ?_
  have hclose : ∀ (start : Span) (elements : List α),
      Forward (expect .rightParen >>= fun _ => pure (start, elements)) :=
    fun _ _ => (forward_expect _).bind fun _ => forward_pure _
  exact .ite _ ((forward_pure _).bind fun _ => hclose _ _)
    ((forward_commaSeparated hp).bind fun _ => hclose _ _)

/-! ## Expressions -/

section

variable {inner : Parser Tree} {expression' : Nat → Parser Tree}

theorem forward_callOf (hinner : Forward inner) (name : String) (start : Span) :
    Forward (callOf inner name start) :=
  (forward_parenthesised hinner).bind fun _ => (forward_spanFrom _).bind fun _ =>
    (forward_spanFrom _).bind fun _ => forward_pure _

theorem forward_unexpected (found : Lexeme) (start : Span) : Forward (do
    complain ("expected expression, found " ++ found.description)
    match found with
    | .newline | .eof | .dedent | .indent => pure ()
    | _ => advance
    return missing start) := by
  refine (forward_complain _).bind fun _ => ?_
  split
  · exact (forward_pure _).bind fun _ => forward_pure _
  · exact (forward_pure _).bind fun _ => forward_pure _
  · exact (forward_pure _).bind fun _ => forward_pure _
  · exact (forward_pure _).bind fun _ => forward_pure _
  · exact forward_advance.bind fun _ => forward_pure _

theorem forward_primary (hinner : Forward inner) : Forward (primary inner) := by
  refine forward_currentSpan.bind fun start => forward_peek.bind fun found => ?_
  cases found with
  | integer | floating => exact forward_advance.bind fun _ => forward_pure _
  | ident =>
    exact forward_advance.bind fun _ => forward_peek.bind fun _ =>
      .ite _ (forward_callOf hinner _ _) (forward_pure _)
  | leftParen =>
    exact forward_advance.bind fun _ => hinner.bind fun _ => (forward_expect _).bind fun _ =>
      forward_pure _
  | _ => exact forward_unexpected _ start

theorem forward_operand (h : ∀ least, Forward (expression' least)) : Forward (operand expression') :=
  forward_peek.bind fun _ => .ite _
    (forward_currentSpan.bind fun _ => forward_advance.bind fun _ => (h _).bind fun _ => forward_pure _)
    (forward_primary (h 0))

theorem forward_infixStep (h : ∀ least, Forward (expression' least)) (least : Nat)
    (acc : Tree × Bool) : Forward (infixStep expression' least acc) := by
  refine forward_peek.bind fun found => ?_
  split
  · exact forward_pure _
  · next op _ =>
    have hgo : Forward (do
        advance
        let right ← expression' op.power.2
        let tree := Tree.node (acc.1.span.merge right.span) (.infixOp op acc.1 right)
        return ((tree, op.isComparison), true)) :=
      forward_advance.bind fun _ => (h _).bind fun _ => forward_pure _
    exact .ite _ (forward_pure _) (.ite _ ((forward_complainWithHelp _ _).bind fun _ => hgo) hgo)

theorem forward_expression (room least : Nat) : Forward (expression room least) := by
  induction room generalizing least with
  | zero =>
    exact (forward_complainWithHelp _ _).bind fun _ => forward_currentSpan.bind fun _ => forward_pure _
  | succ room ih =>
    exact (forward_operand ih).bind fun _ => (forward_iterate (forward_infixStep ih least) _).bind
      fun _ => forward_pure _

end

end Parser

end Abacus
