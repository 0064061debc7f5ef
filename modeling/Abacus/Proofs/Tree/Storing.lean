import Abacus.Proofs.Tree.PostOrder
import Abacus.Tree.Statement

/-!
# Parsing into an arena

A `Parser` hands on what it has read as a nested tree. Here are the same parsers with an arena beside the
stream: every node is put behind the nodes that are there as soon as it has been read, under the next
number, and its number is handed on. Where they need to know the place of something that has been read,
they look it up in the arena.

* `Shelf`, `Storing` — a stream with an arena, and parsers that work on both;
* `Storing.expression`, `Storing.body`, `Storing.program` — the parsers;
* `Stores` — a storing parser reads what a parser reads, and stores the nodes of its trees in a row;
* `storeText` — the arena of a text; `storeText_eq` — it is that of the tree of the text.
-/

namespace Abacus

/-- A token stream, and the nodes of what has been read. -/
structure Shelf where
  stream : TokenStream
  nodes : Array FlatNode

/-- Parsers that put what they read into an arena. -/
abbrev Storing (α : Type) := StateM Shelf α

namespace Storing

open Abacus.Parser hiding iterate commaSeparated parenthesised callOf missing primary operand infixStep
  expression fnDef ifElse forLoop letVar giveBack setVar statement block body topLevelStep program

variable {α β : Type}

/-- A parser that reads no trees. -/
def lift (p : Parser α) : Storing α := fun s => ((p s.stream).1, { s with stream := (p s.stream).2 })

instance : MonadLift Parser Storing := ⟨lift⟩

/-- Puts a node behind the others. Gives its number. -/
def put (span : Span) (shape : Shape Nat) : Storing Nat := fun s =>
  (s.nodes.size, { s with nodes := s.nodes.push ⟨span, shape⟩ })

/-- The place of a node. -/
def spanAt (id : Nat) : Storing Span := fun s => ((Arena.spanOf? s.nodes id).getD Span.none, s)

/-! ## Lists -/

/-- Runs `step` on the accumulated value until it asks to stop. A round that has not shortened the
stream is the last one. -/
def iterate (step : β → Storing (β × Bool)) (acc : β) : Storing β := fun s =>
  let result := step acc s
  if _h : result.1.2 = true ∧ result.2.stream.rest.length < s.stream.rest.length then
    iterate step result.1.1 result.2
  else (result.1.1, result.2)
termination_by s => s.stream.rest.length
decreasing_by exact _h.2

/-- Elements separated by commas, at least one. -/
def commaSeparated (element : Storing Nat) : Storing (List Nat) := do
  let elements ← iterate (fun (sofar : Array Nat) => do
    let next ← element
    return (sofar.push next, ← eat .comma)) #[]
  return elements.toList

/-- A list in parentheses: nothing, or elements separated by commas. -/
def parenthesised (element : Storing Nat) : Storing (Span × List Nat) := do
  let start ← expect .leftParen
  let elements ← if (← peek) = .rightParen then pure [] else commaSeparated element
  let _ ← expect .rightParen
  return (start, elements)

/-! ## Expressions -/

/-- The arguments of the call of `name`, which starts at `start`. -/
def callOf (inner : Storing Nat) (name : String) (start : Span) : Storing Nat := do
  let (opening, elements) ← parenthesised inner
  let arguments ← put (← spanFrom opening) (.list elements)
  put (← spanFrom start) (.call name arguments)

/-- The node that stands where no expression could be read. -/
def missing (span : Span) : Storing Nat := put span (.integer 0)

/-- A literal, a variable, a call, or an expression in parentheses, which leave no node. -/
def primary (inner : Storing Nat) : Storing Nat := do
  let start ← currentSpan
  match ← peek with
  | .integer value =>
    advance
    put start (.integer value)
  | .floating value =>
    advance
    put start (.floating value)
  | .ident name =>
    advance
    if (← peek) = .leftParen then callOf inner name start
    else put start (.ident name)
  | .leftParen =>
    advance
    let id ← inner
    let _ ← expect .rightParen
    return id
  | found =>
    complain ("expected expression, found " ++ found.description)
    match found with
    | .newline | .eof | .dedent | .indent => pure ()
    | _ => advance
    missing start

/-- A primary, or a minus and its operand. -/
def operand (expression : Nat → Storing Nat) : Storing Nat := do
  if (← peek) = .minus then
    let start ← currentSpan
    advance
    let id ← expression negatePower
    put (start.merge (← spanAt id)) (.negate id)
  else primary (expression 0)

/-- One round of an operator chain: an operator of at least the power `least` and its right operand. The
flag says that the operator before was a comparison. -/
def infixStep (expression : Nat → Storing Nat) (least : Nat) :
    Nat × Bool → Storing ((Nat × Bool) × Bool) := fun (left, compared) => do
  match infixOf? (← peek) with
  | none => return ((left, compared), false)
  | some op =>
    let (leftPower, rightPower) := op.power
    if leftPower < least then return ((left, compared), false)
    else
      if op.isComparison && compared then
        complainWithHelp "comparison operators cannot be chained"
          "parenthesize the first comparison"
      advance
      let right ← expression rightPower
      let span := (← spanAt left).merge (← spanAt right)
      let id ← put span (.infixOp op left right)
      return ((id, op.isComparison), true)

/-- An expression with the given room for nesting, of operators of at least the given power. -/
def expression : Nat → Nat → Storing Nat
  | 0, _ => do
    complainTooDeep
    missing (← currentSpan)
  | room + 1, least => do
    let first ← operand (expression room)
    let (id, _) ← iterate (infixStep (expression room) least) (first, false)
    return id

/-! ## Statements -/

/-- A function: its name, its parameters and its body. -/
def fnDef (body : Storing Nat) : Storing Nat := do
  let start ← expect .fnWord
  let name ← expectIdent
  let (_, parameters) ← Parser.parenthesised expectIdent
  let inner ← body
  put (← spanFrom start) (.fnDef name parameters inner)

/-- A condition, the body for when it holds, and possibly one for when it does not. -/
def ifElse (expr body : Storing Nat) : Storing Nat := do
  let start ← expect .ifWord
  let condition ← expr
  let thenBody ← body
  let elseBody ←
    if ← findElse then
      let _ ← expect .elseWord
      some <$> body
    else pure none
  put (← spanFrom start) (.ifElse condition thenBody elseBody)

/-- A counting loop. -/
def forLoop (expr body : Storing Nat) : Storing Nat := do
  let start ← expect .forWord
  let index ← expectIdent
  let _ ← expect .less
  let bound ← expr
  let inner ← body
  put (← spanFrom start) (.forLoop index bound inner)

/-- A new variable and its value. -/
def letVar (expr : Storing Nat) : Storing Nat := do
  let start ← currentSpan
  advance
  let name ← expectIdent
  let _ ← expect .equals
  let value ← expr
  put (← spanFrom start) (.letVar name value)

/-- The value that a function gives back. -/
def giveBack (expr : Storing Nat) : Storing Nat := do
  let start ← currentSpan
  advance
  let value ← expr
  put (← spanFrom start) (.giveBack value)

/-- A new value for the variable `name`; the name and the `=` are still to be read. -/
def setVar (expr : Storing Nat) (name : String) : Storing Nat := do
  let start ← currentSpan
  advance
  advance
  let value ← expr
  put (← spanFrom start) (.setVar name value)

/-- One statement. -/
def statement (expr body : Storing Nat) : Storing Nat := do
  match ← peek with
  | .letWord => letVar expr
  | .returnWord => giveBack expr
  | .ifWord => ifElse expr body
  | .forWord => forLoop expr body
  | .fnWord =>
    complainWithHelp "functions may only be defined at the top level"
      "move this definition out of the enclosing body"
    fnDef body
  | .ident name =>
    if (← peekSecond) = .equals then setVar expr name else expr
  | _ => expr

/-! ## Bodies and programs -/

/-- The statements of a block, up to the end of the block, which is stepped over. -/
def block (item : Storing Nat) : Storing (List Nat) := do
  let items ← iterate (fun (sofar : Array Nat) => do
    skipNewlines
    if ← eat .dedent then return (sofar, false)
    else if (← peek) = .eof then return (sofar, false)
    else
      let next ← item
      endStatement
      return (sofar.push next, true)) #[]
  return items.toList

/-- A body, after an optional colon, with the given room for nesting. -/
def body : Nat → Storing Nat
  | 0 => do
    let start ← currentSpan
    let _ ← eat .colon
    complainTooDeep
    put start (.list [])
  | room + 1 => do
    let start ← currentSpan
    let _ ← eat .colon
    let item := statement (expression room 0) (body room)
    let items ←
      if ← eat .newline then
        let _ ← expect .indent
        block item
      else
        pure [← item]
    put (← spanFrom start) (.list items)

/-- One round at the top level: an item and its end, or indentation that belongs to nothing. -/
def topLevelStep (sofar : Array Nat) : Storing (Array Nat × Bool) := do
  skipNewlines
  match ← peek with
  | .eof => return (sofar, false)
  | .indent | .dedent =>
    complain "unexpected indentation"
    advance
    return (sofar, true)
  | .fnWord =>
    let item ← fnDef (body maxNesting)
    endStatement
    return (sofar.push item, true)
  | _ =>
    let item ← statement (expression maxNesting 0) (body maxNesting)
    endStatement
    return (sofar.push item, true)

/-- A whole text: functions and statements in any order. -/
def program : Storing Nat := do
  let start ← currentSpan
  let items ← iterate topLevelStep #[]
  put (← spanFrom start) (.program items.toList)

/-! ## What is stored -/

/-- The tree `t` has been stored behind `nodes`, under the number `id`. -/
def Put (nodes : Array FlatNode) (t : Tree) (id : Nat) (after : Array FlatNode) : Prop :=
  after = t.place nodes ∧ id = after.size - 1

/-- The trees `ts` have been stored behind `nodes`, one after the other, under the numbers `ids`. -/
def PutAll (nodes : Array FlatNode) (ts : List Tree) (ids : List Nat) (after : Array FlatNode) : Prop :=
  Tree.placeAll ts nodes = (after, ids)

/-- The trees that a loop has gathered have been stored. -/
def Gathered (nodes : Array FlatNode) (ts : Array Tree) (ids : Array Nat) (after : Array FlatNode) : Prop :=
  PutAll nodes ts.toList ids.toList after

section

variable {nodes middle after : Array FlatNode} {ts : List Tree} {ids : List Nat} {t u : Tree} {id id' : Nat}

theorem PutAll.nil : PutAll nodes [] [] nodes := rfl

/-- One more tree behind the others. -/
theorem PutAll.snoc (h : PutAll nodes ts ids middle) (ht : Put middle t id after) :
    PutAll nodes (ts ++ [t]) (ids ++ [id]) after := by
  induction ts generalizing nodes ids with
  | nil =>
    obtain ⟨rfl, rfl⟩ := ht
    cases h
    rfl
  | cons first rest ih =>
    obtain ⟨rfl, rfl⟩ := Prod.mk.inj h
    have hrest : Tree.placeAll (rest ++ [t]) (first.place nodes) = _ := ih rfl
    rw [PutAll, List.cons_append, Tree.placeAll, hrest]
    rfl

/-- The places of trees that have been stored can be looked up. -/
theorem PutAll.spans (h : PutAll nodes ts ids after) :
    ids.map (Arena.spanOf? after) = ts.map fun t => some t.span := by
  have hlisted := (Tree.placeAll_listed (fun t (_ : t ∈ ts) => t.place_listed) nodes).2.spans
  rwa [h] at hlisted

theorem PutAll.list (h : PutAll nodes ts ids after) (span : Span) :
    (Tree.node span (.list ts)).place nodes = after.push ⟨span, .list ids⟩ := by
  rw [Tree.place, h]

theorem PutAll.program (h : PutAll nodes ts ids after) (span : Span) :
    (Tree.node span (.program ts)).place nodes = after.push ⟨span, .program ids⟩ := by
  rw [Tree.place, h]

theorem Gathered.push {ts : Array Tree} {ids : Array Nat} (h : Gathered nodes ts ids middle)
    (ht : Put middle t id after) : Gathered nodes (ts.push t) (ids.push id) after := by
  rw [Gathered, Array.toList_push, Array.toList_push]
  exact h.snoc ht

theorem Put.all (h : Put nodes t id after) : PutAll nodes [t] [id] after := PutAll.nil.snoc h

theorem Put.spanOf? (h : Put nodes t id after) : Arena.spanOf? after id = some t.span :=
  (List.cons.inj h.all.spans).1

/-- Two operands are both there once the second one has been stored. -/
theorem Put.spans (h : Put nodes t id middle) (h' : Put middle u id' after) :
    Arena.spanOf? after id = some t.span ∧ Arena.spanOf? after id' = some u.span :=
  ⟨(List.cons.inj (h.all.snoc h').spans).1, h'.spanOf?⟩

end

/-! ## Storing parsers and parsers -/

/-- With `nodes` there, `q` reads what `p` reads, whatever comes, and what they give is related by `J`,
with the nodes there are then. -/
def Stores (nodes : Array FlatNode) (p : Parser α) (q : Storing β)
    (J : α → β → Array FlatNode → Prop) : Prop :=
  ∀ stream, (q ⟨stream, nodes⟩).2.stream = (p stream).2 ∧
    J (p stream).1 (q ⟨stream, nodes⟩).1 (q ⟨stream, nodes⟩).2.nodes

section

variable {γ δ : Type} {nodes : Array FlatNode} {p : Parser α} {q : Storing β}
  {J : α → β → Array FlatNode → Prop} {K : γ → δ → Array FlatNode → Prop}

namespace Stores

theorem map (h : Stores nodes p q J) (f : α → γ) (g : β → δ) :
    Stores nodes (f <$> p) (g <$> q) fun z w after => ∃ x y, z = f x ∧ w = g y ∧ J x y after :=
  fun stream => ⟨(h stream).1, _, _, rfl, rfl, (h stream).2⟩

theorem bind {f : α → Parser γ} {g : β → Storing δ} (h : Stores nodes p q J)
    (hnext : ∀ x y after, J x y after → Stores after (f x) (g y) K) :
    Stores nodes (p >>= f) (q >>= g) K := by
  intro stream
  obtain ⟨hstream, hpost⟩ := h stream
  have hafter : (q ⟨stream, nodes⟩).2 = ⟨(p stream).2, (q ⟨stream, nodes⟩).2.nodes⟩ := by rw [← hstream]
  have hrest := hnext _ _ _ hpost (p stream).2
  rwa [← hafter] at hrest

/-- What reads no trees is the same for both. -/
theorem read {f : α → Parser γ} {g : α → Storing δ} (p : Parser α)
    (hnext : ∀ x, Stores nodes (f x) (g x) K) : Stores nodes (p >>= f) (lift p >>= g) K :=
  fun stream => hnext (p stream).1 (p stream).2

theorem ite {q' : Storing β} {p' : Parser α} (c : Prop) [Decidable c] (h : Stores nodes p q J)
    (h' : Stores nodes p' q' J) : Stores nodes (if c then p else p') (if c then q else q') J := by
  split
  · exact h
  · exact h'

/-- A place that is looked up is known to the parser. -/
theorem look {g : Span → Storing β} {id : Nat} {span : Span} (hspan : Arena.spanOf? nodes id = some span)
    (hnext : Stores nodes p (g span) J) : Stores nodes p (spanAt id >>= g) J := by
  intro stream
  have hat : (spanAt id >>= g) ⟨stream, nodes⟩ = g span ⟨stream, nodes⟩ := by
    show g ((Arena.spanOf? nodes id).getD Span.none) ⟨stream, nodes⟩ = _
    rw [hspan, Option.getD_some]
  rw [hat]
  exact hnext stream

/-- The parser does nothing where the node of a tree is put behind what is below it. -/
theorem put {base : Array FlatNode} {t : Tree} {span : Span} {shape : Shape Nat} {g : Nat → Storing β}
    (hput : t.place base = nodes.push ⟨span, shape⟩)
    (hnext : ∀ id after, Put base t id after → Stores after p (g id) J) :
    Stores nodes p (Storing.put span shape >>= g) J :=
  hnext nodes.size (nodes.push ⟨span, shape⟩)
    ⟨hput.symm, by rw [Array.size_push, Nat.add_sub_cancel]⟩

end Stores

theorem stores_pure {x : α} {y : β} (h : J x y nodes) : Stores nodes (pure x) (pure y) J := fun _ => ⟨rfl, h⟩

/-- A node is put behind what is below it. -/
theorem stores_put {base : Array FlatNode} {t : Tree} {span : Span} {shape : Shape Nat}
    (hput : t.place base = nodes.push ⟨span, shape⟩) :
    Stores nodes (pure t) (put span shape) (Put base) :=
  Stores.put (g := pure) hput fun _ _ h => stores_pure h

/-- A node that ends with what has been read. -/
theorem stores_node {base : Array FlatNode} {shape : Shape Tree} {flat : Shape Nat} {start : Span}
    (hput : ∀ span, (Tree.node span shape).place base = nodes.push ⟨span, flat⟩) :
    Stores nodes (spanFrom start >>= fun span => pure (Tree.node span shape))
      (lift (spanFrom start) >>= fun span => put span flat) (Put base) :=
  .read _ fun span => stores_put (hput span)

/-- A loop keeps what its rounds keep. -/
theorem stores_iterate {step : γ → Parser (γ × Bool)} {step' : δ → Storing (δ × Bool)}
    (hstep : ∀ x y nodes, K x y nodes →
      Stores nodes (step x) (step' y) fun r r' after => K r.1 r'.1 after ∧ r'.2 = r.2)
    {x : γ} {y : δ} (h : K x y nodes) :
    Stores nodes (Parser.iterate step x) (iterate step' y) K := by
  intro stream
  -- By induction on the number of tokens that are left.
  induction hlength : stream.rest.length using Nat.strongRecOn generalizing stream x y nodes with
  | _ _ ih =>
    subst hlength
    obtain ⟨hstream, hround, hflag⟩ := hstep x y nodes h stream
    have hafter : (step' y ⟨stream, nodes⟩).2 = ⟨(step x stream).2, (step' y ⟨stream, nodes⟩).2.nodes⟩ := by
      rw [← hstream]
    rw [Parser.iterate, iterate]
    by_cases hmore : (step x stream).1.2 = true ∧ (step x stream).2.rest.length < stream.rest.length
    · have hmore' : (step' y ⟨stream, nodes⟩).1.2 = true ∧
          (step' y ⟨stream, nodes⟩).2.stream.rest.length < stream.rest.length := by rwa [hflag, hstream]
      rw [dif_pos hmore, dif_pos hmore', hafter]
      exact ih _ hmore.2 hround _ rfl
    · have hmore' : ¬ ((step' y ⟨stream, nodes⟩).1.2 = true ∧
          (step' y ⟨stream, nodes⟩).2.stream.rest.length < stream.rest.length) := by rwa [hflag, hstream]
      rw [dif_neg hmore, dif_neg hmore']
      exact ⟨hstream, hround⟩

end

/-! ## Expressions are stored -/

/-- The parser reads a tree, and the other one puts its nodes behind those that are there. -/
def StoresTree (p : Parser Tree) (q : Storing Nat) : Prop := ∀ nodes, Stores nodes p q (Put nodes)

/-- A round that reads one more tree and what stands behind it. -/
theorem stores_push {base nodes : Array FlatNode} {ts : Array Tree} {ids : Array Nat} {item : Parser Tree}
    {item' : Storing Nat} (hall : Gathered base ts ids nodes) (h : StoresTree item item')
    (rest : Parser α) (more : α → Bool) :
    Stores nodes (item >>= fun t => rest >>= fun found => pure (ts.push t, more found))
      (item' >>= fun id => lift rest >>= fun found => pure (ids.push id, more found))
      fun r r' after => Gathered base r.1 r'.1 after ∧ r'.2 = r.2 :=
  (h nodes).bind fun _ _ _ hput => .read _ fun _ => stores_pure ⟨hall.push hput, rfl⟩

theorem stores_commaSeparated {element : Parser Tree} {element' : Storing Nat}
    (h : StoresTree element element') (nodes : Array FlatNode) :
    Stores nodes (Parser.commaSeparated element) (commaSeparated element') (PutAll nodes) :=
  (stores_iterate (K := Gathered nodes) (fun _ _ _ hall => stores_push hall h (eat .comma) id)
    PutAll.nil).bind fun _ _ _ hall => stores_pure hall

theorem stores_parenthesised {element : Parser Tree} {element' : Storing Nat}
    (h : StoresTree element element') (nodes : Array FlatNode) :
    Stores nodes (Parser.parenthesised element) (parenthesised element')
      fun r r' after => r'.1 = r.1 ∧ PutAll nodes r.2 r'.2 after := by
  refine .read _ fun start => .read _ fun found => .ite _ ?_ ?_
  · exact .read _ fun _ => stores_pure ⟨rfl, PutAll.nil⟩
  · exact (stores_commaSeparated h nodes).bind fun _ _ _ hall =>
      .read _ fun _ => stores_pure ⟨rfl, hall⟩

section

variable {expr : Nat → Parser Tree} {expr' : Nat → Storing Nat}
  (hexpr : ∀ least, StoresTree (expr least) (expr' least))

include hexpr

theorem stores_callOf (name : String) (start : Span) :
    StoresTree (Parser.callOf (expr 0) name start) (callOf (expr' 0) name start) := by
  refine fun nodes => (stores_parenthesised (hexpr 0) nodes).bind fun (_, ts) (opening, ids) middle h => ?_
  obtain ⟨rfl, hall⟩ := h
  refine .read _ fun span => .put (hall.list span) fun arguments after hput => ?_
  obtain ⟨rfl, rfl⟩ := hput
  exact stores_node fun _ => rfl

theorem stores_primary : StoresTree (Parser.primary (expr 0)) (primary (expr' 0)) := by
  refine fun nodes => .read _ fun start => .read _ fun found => ?_
  have hmissing : Stores nodes (pure (Parser.missing start)) (missing start) (Put nodes) := stores_put rfl
  cases found with
  | integer | floating => exact .read _ fun _ => stores_put rfl
  | ident name =>
    exact .read _ fun _ => .read _ fun _ => .ite _ (stores_callOf hexpr name start nodes) (stores_put rfl)
  | leftParen =>
    exact .read _ fun _ => (hexpr 0 nodes).bind fun _ _ _ hput => .read _ fun _ => stores_pure hput
  | newline | eof | dedent | indent => exact .read _ fun _ => hmissing
  | _ => exact .read _ fun _ => .read _ fun _ => hmissing

theorem stores_operand : StoresTree (Parser.operand expr) (operand expr') := by
  refine fun nodes => .read _ fun _ => .ite _ ?_ (stores_primary hexpr nodes)
  refine .read _ fun start => .read _ fun _ => (hexpr _ nodes).bind fun inner id after hput => ?_
  refine .look hput.spanOf? (stores_put ?_)
  obtain ⟨rfl, rfl⟩ := hput
  rfl

/-- Behind a left operand, an operator and its right operand are stored. -/
theorem stores_infixStep (least : Nat) {base nodes : Array FlatNode} {left : Tree} {leftId : Nat}
    (compared : Bool) (hleft : Put base left leftId nodes) :
    Stores nodes (Parser.infixStep expr least (left, compared)) (infixStep expr' least (leftId, compared))
      fun r r' after => (Put base r.1.1 r'.1.1 after ∧ r'.1.2 = r.1.2) ∧ r'.2 = r.2 := by
  refine .read _ fun found => ?_
  cases Parser.infixOf? found with
  | none => exact stores_pure ⟨⟨hleft, rfl⟩, rfl⟩
  | some op =>
    have hgo : Stores nodes
        (advance >>= fun _ => expr op.power.2 >>= fun right =>
          pure ((Tree.node (left.span.merge right.span) (.infixOp op left right), op.isComparison), true))
        (lift advance >>= fun _ => expr' op.power.2 >>= fun right =>
          spanAt leftId >>= fun span => spanAt right >>= fun span' =>
            put (span.merge span') (.infixOp op leftId right) >>= fun id =>
              pure ((id, op.isComparison), true))
        fun r r' after => (Put base r.1.1 r'.1.1 after ∧ r'.1.2 = r.1.2) ∧ r'.2 = r.2 := by
      refine .read _ fun _ => (hexpr _ nodes).bind fun right rightId after hright => ?_
      obtain ⟨hspan, hspan'⟩ := hleft.spans hright
      refine .look hspan (.look hspan' (.put ?_ fun _ _ hput => stores_pure ⟨⟨hput, rfl⟩, rfl⟩))
      obtain ⟨rfl, rfl⟩ := hleft
      obtain ⟨rfl, rfl⟩ := hright
      rfl
    exact .ite _ (stores_pure ⟨⟨hleft, rfl⟩, rfl⟩) (.ite _ (.read _ fun _ => hgo) hgo)

end

/-- An expression is stored. -/
theorem stores_expression (room least : Nat) :
    StoresTree (Parser.expression room least) (expression room least) := by
  -- By induction on the room for nesting.
  induction room generalizing least with
  | zero => exact fun nodes => .read _ fun _ => .read _ fun _ => stores_put rfl
  | succ room ih =>
    intro nodes
    have hround : ∀ (r : Tree × Bool) (r' : Nat × Bool) (middle : Array FlatNode),
        Put nodes r.1 r'.1 middle ∧ r'.2 = r.2 → Stores middle
          (Parser.infixStep (Parser.expression room) least r) (infixStep (expression room) least r')
          fun r r' after => (Put nodes r.1.1 r'.1.1 after ∧ r'.1.2 = r.1.2) ∧ r'.2 = r.2 := by
      intro (left, compared) (leftId, compared') middle h
      obtain ⟨hleft, rfl⟩ := h
      exact stores_infixStep ih least _ hleft
    exact (stores_operand ih nodes).bind fun _ _ _ hput =>
      (stores_iterate hround ⟨hput, rfl⟩).bind fun _ _ _ h => stores_pure h.1

/-! ## Statements are stored -/

section

variable {expr body : Parser Tree} {expr' body' : Storing Nat} (hexpr : StoresTree expr expr')
  (hbody : StoresTree body body')

include hbody

theorem stores_fnDef : StoresTree (Parser.fnDef body) (fnDef body') := by
  refine fun nodes => .read _ fun _ => .read _ fun _ => .read _ fun _ =>
    (hbody nodes).bind fun inner id after hput => ?_
  obtain ⟨rfl, rfl⟩ := hput
  exact stores_node fun _ => rfl

include hexpr

theorem stores_ifElse : StoresTree (Parser.ifElse expr body) (ifElse expr' body') := by
  refine fun nodes => .read _ fun start => (hexpr nodes).bind fun condition id middle hcondition =>
    (hbody middle).bind fun thenBody id' after hthen => .read _ fun found => ?_
  obtain ⟨rfl, rfl⟩ := hcondition
  obtain ⟨rfl, rfl⟩ := hthen
  cases found with
  | true =>
    refine .read _ fun _ => (Stores.map (hbody _) some some).bind fun elseBody? id? after h => ?_
    obtain ⟨elseBody, id'', rfl, rfl, rfl, rfl⟩ := h
    exact stores_node fun _ => rfl
  | false => exact stores_node fun _ => rfl

theorem stores_forLoop : StoresTree (Parser.forLoop expr body) (forLoop expr' body') := by
  refine fun nodes => .read _ fun _ => .read _ fun _ => .read _ fun _ =>
    (hexpr nodes).bind fun bound id middle hbound => (hbody middle).bind fun inner id' after hinner => ?_
  obtain ⟨rfl, rfl⟩ := hbound
  obtain ⟨rfl, rfl⟩ := hinner
  exact stores_node fun _ => rfl

omit hbody

theorem stores_letVar : StoresTree (Parser.letVar expr) (letVar expr') := by
  refine fun nodes => .read _ fun _ => .read _ fun _ => .read _ fun _ => .read _ fun _ =>
    (hexpr nodes).bind fun value id after hput => ?_
  obtain ⟨rfl, rfl⟩ := hput
  exact stores_node fun _ => rfl

theorem stores_giveBack : StoresTree (Parser.giveBack expr) (giveBack expr') := by
  refine fun nodes => .read _ fun _ => .read _ fun _ => (hexpr nodes).bind fun value id after hput => ?_
  obtain ⟨rfl, rfl⟩ := hput
  exact stores_node fun _ => rfl

theorem stores_setVar (name : String) : StoresTree (Parser.setVar expr name) (setVar expr' name) := by
  refine fun nodes => .read _ fun _ => .read _ fun _ => .read _ fun _ =>
    (hexpr nodes).bind fun value id after hput => ?_
  obtain ⟨rfl, rfl⟩ := hput
  exact stores_node fun _ => rfl

include hbody

theorem stores_statement : StoresTree (Parser.statement expr body) (statement expr' body') := by
  refine fun nodes => .read _ fun found => ?_
  cases found with
  | letWord => exact stores_letVar hexpr nodes
  | returnWord => exact stores_giveBack hexpr nodes
  | ifWord => exact stores_ifElse hexpr hbody nodes
  | forWord => exact stores_forLoop hexpr hbody nodes
  | fnWord => exact .read _ fun _ => stores_fnDef hbody nodes
  | ident name => exact .read _ fun _ => .ite _ (stores_setVar hexpr name nodes) (hexpr nodes)
  | _ => exact hexpr nodes

end

/-! ## Bodies and programs are stored -/

theorem stores_block {item : Parser Tree} {item' : Storing Nat} (h : StoresTree item item')
    (nodes : Array FlatNode) : Stores nodes (Parser.block item) (block item') (PutAll nodes) := by
  refine (stores_iterate (K := Gathered nodes) (fun ts ids middle hall => ?_) PutAll.nil).bind
    fun _ _ _ hall => stores_pure hall
  have hstop : Stores middle (pure (ts, false)) (pure (ids, false)) fun r r' after =>
      Gathered nodes r.1 r'.1 after ∧ r'.2 = r.2 := stores_pure ⟨hall, rfl⟩
  exact .read _ fun _ => .read _ fun _ => .ite _ hstop <| .read _ fun _ => .ite _ hstop <|
    stores_push hall h endStatement fun _ => true

/-- A body is stored. -/
theorem stores_body (room : Nat) : StoresTree (Parser.body room) (body room) := by
  -- By induction on the room for nesting.
  induction room with
  | zero => exact fun nodes => .read _ fun _ => .read _ fun _ => .read _ fun _ => stores_put rfl
  | succ room ih =>
    have hitem := stores_statement (stores_expression room 0) ih
    refine fun nodes => .read _ fun start => .read _ fun _ => .read _ fun line => ?_
    cases line with
    | true =>
      exact .read _ fun _ => (stores_block hitem nodes).bind fun _ _ _ hall =>
        stores_node fun span => hall.list span
    | false => exact (hitem nodes).bind fun _ _ _ hput => stores_node fun span => hput.all.list span

theorem stores_topLevelStep {base nodes : Array FlatNode} {ts : Array Tree} {ids : Array Nat}
    (hall : Gathered base ts ids nodes) :
    Stores nodes (Parser.topLevelStep ts) (topLevelStep ids) fun r r' after =>
      Gathered base r.1 r'.1 after ∧ r'.2 = r.2 := by
  refine .read _ fun _ => .read _ fun found => ?_
  cases found with
  | eof => exact stores_pure ⟨hall, rfl⟩
  | indent | dedent => exact .read _ fun _ => .read _ fun _ => stores_pure ⟨hall, rfl⟩
  | fnWord => exact stores_push hall (stores_fnDef (stores_body maxNesting)) endStatement fun _ => true
  | _ =>
    exact stores_push hall (stores_statement (stores_expression maxNesting 0) (stores_body maxNesting))
      endStatement fun _ => true

/-- A whole program is stored. -/
theorem stores_program : StoresTree Parser.program program :=
  fun nodes => .read _ fun _ =>
    (stores_iterate (K := Gathered nodes) (fun _ _ _ hall => stores_topLevelStep hall) PutAll.nil).bind
      fun _ _ _ hall => stores_node fun span => hall.program span

end Storing

/-- The arena of a source text, or what there is to complain about it. -/
def storeText (text : String) : Except (List Diagnostic) Arena :=
  let scanned := scan text
  if scanned.complaints.isEmpty then
    let (root, after) := Storing.program ⟨.ofTokens scanned.tokens, #[]⟩
    if after.stream.complaints.isEmpty then .ok ⟨after.nodes, some root⟩
    else .error after.stream.complaints.toList
  else .error scanned.complaints

/-- The arena that a parser fills while it reads is that of the tree of the text. -/
theorem storeText_eq (text : String) : storeText text = (parse text).map Tree.toArena := by
  unfold storeText parse
  by_cases hscanned : (scan text).complaints.isEmpty = true
  · rw [if_pos hscanned, if_pos hscanned, parseTokens]
    have hstores := Storing.stores_program #[] (.ofTokens (scan text).tokens)
    cases hstored : Storing.program ⟨.ofTokens (scan text).tokens, #[]⟩ with
    | mk root after =>
      cases hparsed : Parser.program (.ofTokens (scan text).tokens) with
      | mk tree after' =>
        rw [hstored, hparsed] at hstores
        obtain ⟨rfl, hnodes, rfl⟩ :
            after.stream = after' ∧ after.nodes = tree.place #[] ∧ root = after.nodes.size - 1 := hstores
        show (if after.stream.complaints.isEmpty then _ else _) = Except.map _ (if _ then _ else _)
        split
        · rw [Except.map, Tree.toArena, ← hnodes]
        · rfl
  · rw [if_neg hscanned, if_neg hscanned]
    rfl

end Abacus
