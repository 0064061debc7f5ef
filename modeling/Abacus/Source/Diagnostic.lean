import Abacus.Source.Span

/-!
# Diagnostics

What is said about a source text: a message at a place, with notes and at most one piece of help.
-/

namespace Abacus

/-- How bad it is. -/
inductive Severity where
  | error
  | warning
  deriving DecidableEq, Repr

/-- The name of a severity, as diagnostics print it. -/
def Severity.text : Severity → String
  | .error => "error"
  | .warning => "warning"

/-- A message at a place of the source text. -/
structure Diagnostic where
  severity : Severity
  message : String
  span : Span
  notes : List String
  help? : Option String
  deriving DecidableEq, Repr

namespace Diagnostic

/-- An error without notes and help. -/
def error (message : String) (span : Span) : Diagnostic := ⟨.error, message, span, [], none⟩

/-- A warning without notes and help. -/
def warning (message : String) (span : Span) : Diagnostic := ⟨.warning, message, span, [], none⟩

/-- Adds a note after the notes that are there. -/
def withNote (d : Diagnostic) (note : String) : Diagnostic := { d with notes := d.notes ++ [note] }

/-- Sets the help; the last help given counts. -/
def withHelp (d : Diagnostic) (help : String) : Diagnostic := { d with help? := some help }

/-- One line: severity, line, column and message. -/
def text (d : Diagnostic) : String :=
  d.severity.text ++ ":" ++ toString d.span.line ++ ":" ++ toString d.span.column ++ ": " ++
    d.message

end Diagnostic

end Abacus
