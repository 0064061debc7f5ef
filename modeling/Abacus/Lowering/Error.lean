import Abacus.Flow.Verifier
import Abacus.Source.Diagnostic

/-!
# What can go wrong when a tree is lowered

A `LoweringError` is a cause at a place. The causes are the mistakes of a program, and the `Defect`s
that no program written as text should be able to bring about.
-/

namespace Abacus.Lowering

open Abacus.Flow (Value Block Ty Violation)

/-- The identity of a symbol. It outlives the scope in which the symbol was defined. -/
structure SymbolId where
  number : Nat
  deriving DecidableEq, Repr, Inhabited

instance : Ord SymbolId := ⟨fun a b => compare a.number b.number⟩

instance : Std.TransOrd SymbolId := inferInstanceAs (Std.TransCmp (compareOn SymbolId.number))

instance : Std.LawfulEqOrd SymbolId where
  eq_of_compare {a b} h := by
    cases a; cases b
    simpa using Nat.compare_eq_eq.1 h

/-- What a name was looked for as. -/
inductive SymbolKind where
  | var
  | function
  | symbol
  deriving DecidableEq, Repr

/-- The word for a kind of symbol. -/
def SymbolKind.text : SymbolKind → String
  | var => "variable"
  | function => "function"
  | symbol => "symbol"

/-- Misuse of the parts of the compiler, and trees that no source text gives. -/
inductive Defect where
  | noRoot
  | outermostScope
  | alreadyOpen (name current : String)
  | noOpenFunction
  | noSuchBlock (block : Block)
  | noParameter (function : String) (index : Nat)
  | undeclared (var : SymbolId) (block : Block)
  | endless (var : SymbolId) (block : Block)
  | sealedTwice (block : Block)
  | neverSealed (block : Block) (phis : Nat)
  | inconvertible (source target : Ty)
  | unbranchable (ty : Ty)
  | notExpression (found : String)
  | nestedFunction (name : String)
  | strayList
  | untyped (name : String)
  | invalid (violation : Violation)
  | reported (text : String)
  deriving DecidableEq, Repr

/-- The words for a defect. -/
def Defect.text : Defect → String
  | noRoot => "program has no root node"
  | outermostScope => "attempted to pop the outermost scope"
  | alreadyOpen name current =>
    "cannot begin `" ++ name ++ "` while `" ++ current ++ "` is still open"
  | noOpenFunction => "no function is open"
  | noSuchBlock block => "no such block " ++ block.text
  | noParameter function index => "`" ++ function ++ "` has no parameter " ++ toString index
  | undeclared var block =>
    "read of undeclared variable sym" ++ toString var.number ++ " in " ++ block.text
  | endless var block =>
    "the search for sym" ++ toString var.number ++ " from " ++ block.text ++ " does not end"
  | sealedTwice block => "block " ++ block.text ++ " sealed twice"
  | neverSealed block phis =>
    "block " ++ block.text ++ " was never sealed (" ++ toString phis ++ " incomplete phis)"
  | inconvertible source target => "cannot convert " ++ source.text ++ " to " ++ target.text
  | unbranchable ty => "cannot branch on " ++ ty.text
  | notExpression found => "expected an expression, found " ++ found
  | nestedFunction name => "function `" ++ name ++ "` defined inside another body"
  | strayList => "statement list in statement position"
  | untyped name => "variable `" ++ name ++ "` has no recorded type"
  | invalid violation => violation.message
  | reported text => text

/-- Why a tree cannot be lowered. -/
inductive Cause where
  | duplicate (name : String)
  | unknown (kind : SymbolKind) (name : String)
  | arity (name : String) (expected found : Nat)
  | internal (defect : Defect)
  deriving DecidableEq, Repr

/-- The message of a cause. -/
def Cause.message : Cause → String
  | duplicate name => "`" ++ name ++ "` is already defined in this scope"
  | unknown kind name => "unknown " ++ kind.text ++ " `" ++ name ++ "`"
  | arity name expected found =>
    "`" ++ name ++ "` takes " ++ toString expected ++ " argument(s) but " ++ toString found ++
      " were supplied"
  | internal defect => "internal compiler error: " ++ defect.text

/-- A cause at a place; the place may still be open. -/
structure LoweringError where
  cause : Cause
  span : Span
  deriving DecidableEq, Repr

namespace LoweringError

/-- A cause that has no place yet. -/
def ofCause (cause : Cause) : LoweringError := ⟨cause, Span.none⟩

/-- A defect that has no place yet. -/
def ofDefect (defect : Defect) : LoweringError := ofCause (.internal defect)

/-- Gives the error a place, unless it has one. -/
def locate (e : LoweringError) (span : Span) : LoweringError :=
  if e.span = Span.none then { e with span := span } else e

/-- The error as a diagnostic, with what helps against it. -/
def diagnostic (e : LoweringError) : Diagnostic :=
  let plain := Diagnostic.error e.cause.message e.span
  match e.cause with
  | .duplicate _ => plain.withHelp "rename one of the definitions"
  | .unknown .var name =>
    plain.withHelp ("introduce it first with `let " ++ name ++ " = ...`")
  | .unknown .function _ => plain.withNote "functions must be defined before they are called"
  | .internal _ => plain.withNote "this is a bug in the compiler, not in the program"
  | .unknown .symbol _ | .arity .. => plain

end LoweringError

end Abacus.Lowering
