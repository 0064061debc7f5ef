import Abacus.Compile
import Abacus.Machine.Step

/-!
# Sessions

A `Session` compiles one unit after the other. Later units call the functions of earlier ones, and
all of them are linked into one program. A unit that does not compile leaves the session as it was.
-/

namespace Abacus

open Abacus.Lowering (Options Export Emission)
open Abacus.Machine (Program Execution RuntimeError)

/-- Options and fuel, the functions that later units see, the linked program, and the number of
units that have compiled. -/
structure Session where
  options : Options
  fuel : Nat
  exports : List Export
  program : Program
  units : Nat

namespace Session

/-- A session before its first unit. -/
def start (options : Options) (fuel : Nat) : Session := ⟨options, fuel, [], Program.empty, 0⟩

/-- The name of the function of the top-level statements of the next unit. -/
def unitName (s : Session) : String := "__repl_" ++ toString s.units

/-- The session after a unit has compiled. -/
def accept (s : Session) (emission : Emission) : Session :=
  { s with
    exports := s.exports ++ emission.exports
    program := s.program.link emission.module
    units := s.units + 1 }

/-- Compiles and links a unit. -/
def compileUnit (s : Session) (source : String) :
    Except (List Diagnostic) (Emission × Session) := do
  let tree ← parse source
  let emission ← compileTree s.options s.exports s.unitName tree
  return (emission, s.accept emission)

end Session

/-- Why a unit gives no result. -/
inductive SessionError where
  | compile (diagnostics : List Diagnostic)
  | runtime (error : RuntimeError)

/-- The message of an error. -/
def SessionError.message : SessionError → String
  | compile diagnostics => toString diagnostics.length ++ " compile error(s)"
  | runtime e => e.message

namespace Session

/-- Compiles and links a unit and runs its top-level statements, if it has any. A unit that fails
only when it runs stays linked. -/
def eval (s : Session) (source : String) :
    Except SessionError (Option Execution) × Session :=
  match s.compileUnit source with
  | .error diagnostics => (.error (.compile diagnostics), s)
  | .ok (emission, after) =>
    match emission.unit? with
    | none => (.ok none, after)
    | some unit =>
      match after.program.run unit [] after.fuel with
      | .ok execution => (.ok (some execution), after)
      | .error e => (.error (.runtime e), after)

end Session

end Abacus
