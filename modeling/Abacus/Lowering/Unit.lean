import Abacus.Lowering.Statement

/-!
# Lowering a unit

A unit is one source text. Its function definitions become functions; its other top-level
statements, in order, become one further function, whose result is the value of the last of them
that is an expression. A function is known from its definition on, also to itself, and by the
`Export`s to later units.
-/

namespace Abacus.Lowering

open Abacus.Flow (Value Block Function Module Builder)

/-- What is decided outside of the source text. -/
structure Options where
  fault : FaultConfig
  verify : Bool
  deriving DecidableEq, Repr

/-- The usual options. -/
def Options.default : Options := ⟨FaultConfig.default, true⟩

/-- A function as later units see it. -/
structure Export where
  name : String
  arity : Nat
  mayFault : Bool
  deriving DecidableEq, Repr

/-- What the name of a function stands for. -/
def Export.binding (e : Export) : Binding := .function e.arity e.mayFault

/-- What a unit gives: its functions, those of them that later units see, and the name of the
function of its top-level statements if it has any. -/
structure Emission where
  module : Module
  exports : List Export
  unit? : Option String

/-- The name of the function of the top-level statements where none is given. -/
def defaultUnitName : String := "__unit0"

/-- The state at the start of a function: its name is defined, its entry is sealed. -/
def openFunction (symbols : SymbolTable) (name : String) (arity : Nat) :
    Except LoweringError State := do
  let (_, symbols) ← symbols.define name (.function arity false)
  let builder := Builder.start name (List.replicate arity .int) .int
  let ((), s) ← (Lower.onDraft (Drafting.sealBlock Function.entry))
    ⟨symbols, ⟨builder, Variables.empty⟩, false⟩
  return s

/-- Ends a body: control that reaches its end gives back `result?`, or 0. -/
def endBody (result? : Option Value) : Drafting Unit := do
  let draft ← get
  if draft.builder.isTerminated draft.builder.current then return ()
  else
    let v ← match result? with
      | some v => pure v
      | none => Drafting.emit (.intConst 0) .int
    Drafting.terminate (.ret v)

/-- The function of a draft that is complete, if it is well formed. -/
def finishDraft (verify : Bool) (draft : Draft) : Except LoweringError Function := do
  draft.known.finish
  let f := draft.builder.function
  if verify then
    match f.violation? with
    | some violation => throw (.ofDefect (.invalid violation))
    | none => return f
  else return f

/-- Ends a function: its graph, and the names in scope with its fault flag. -/
def closeFunction (options : Options) (name : String) (arity : Nat) (result? : Option Value)
    (s : State) : Except LoweringError (Function × SymbolTable) := do
  let ((), s) ← (Lower.onDraft (endBody result?)) s
  let f ← finishDraft options.verify s.draft
  if s.mayFault then
    let (_, symbols) ← s.symbols.redefine name (.function arity true)
    return (f, symbols)
  else return (f, s.symbols)

/-- Gives errors that have no place yet the place `span`. -/
def locateError {α : Type} (span : Span) : Except LoweringError α → Except LoweringError α
  | .ok a => .ok a
  | .error e => .error (e.locate span)

/-- The parameters of a function become variables. -/
def Lower.parameters (span : Span) : List String → Nat → Lower Unit
  | [], _ => return ()
  | name :: rest, index => do
    let var ← Lower.located span (Lower.define name .var)
    Lower.onDraft (Drafting.declare var .int)
    Lower.onDraft (Drafting.write var Function.entry ⟨index⟩)
    Lower.parameters span rest (index + 1)

/-- A function definition: the function, how later units see it, and the names in scope after
it. -/
def lowerFunction (options : Options) (symbols : SymbolTable) (span : Span) (name : String)
    (parameters : List String) (body : Tree) :
    Except LoweringError (Function × Export × SymbolTable) := do
  let arity := parameters.length
  let start ← locateError span (openFunction symbols name arity)
  let work : Lower Unit := Lower.inScope do
    Lower.parameters span parameters 0
    Lower.items options.fault body
  let ((), s) ← work start
  let (f, symbols) ← locateError span (closeFunction options name arity none s)
  return (f, ⟨name, arity, s.mayFault⟩, symbols)

/-- The top-level statements as a function without parameters. -/
def lowerStatements (options : Options) (symbols : SymbolTable) (name : String)
    (items : List Tree) : Except LoweringError Function := do
  let span := (items.head?.map Tree.span).getD Span.none
  let start ← locateError span (openFunction symbols name 0)
  let (last?, s) ← (Lower.inScope (Lower.statementsValue options.fault items)) start
  let (result?, s) ← match last? with
    | some v => do
      let (v, s) ← (Lower.coerce v .int) s
      pure (some v, s)
    | none => pure (none, s)
  let (f, _) ← closeFunction options name 0 result? s
  return f

/-- What has been made of the items so far. -/
structure Progress where
  symbols : SymbolTable
  functions : Array Function
  exports : Array Export
  statements : Array Tree

/-- One top-level item: a function is lowered at once, a statement is kept for later. -/
def lowerItem (options : Options) (progress : Progress) (item : Tree) :
    Except LoweringError Progress :=
  match item with
  | .node span (.fnDef name parameters body) => do
    let (f, entry, symbols) ←
      lowerFunction options progress.symbols span name parameters body
    return { progress with
      symbols, functions := progress.functions.push f, exports := progress.exports.push entry }
  | statement => return { progress with statements := progress.statements.push statement }

/-- The names that earlier units export. A name must not be exported twice. -/
def importExports (exports : List Export) : Except LoweringError SymbolTable :=
  exports.foldlM (fun symbols e => return (← symbols.define e.name e.binding).2)
    SymbolTable.empty

/-- Lowers a unit. The first error stops it. -/
def lowerUnit (options : Options) (exports : List Export) (unitName : String)
    (tree? : Option Tree) : Except LoweringError Emission := do
  let symbols ← importExports exports
  match tree? with
  | none => throw (.ofDefect .noRoot)
  | some tree =>
    let progress ← tree.items.foldlM (lowerItem options) ⟨symbols, #[], #[], #[]⟩
    if progress.statements.isEmpty then
      return ⟨⟨progress.functions.toList⟩, progress.exports.toList, none⟩
    else
      let f ← lowerStatements options progress.symbols unitName progress.statements.toList
      return ⟨⟨(progress.functions.push f).toList⟩, progress.exports.toList, some unitName⟩

end Abacus.Lowering
