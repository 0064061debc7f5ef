import Abacus.Source.Diagnostic
import Abacus.Source.Token
import Abacus.Tree.Basic

/-!
# Reading tokens

A `TokenStream` is what a parser works on: the tokens still to come, the token read last, and the
complaints so far. A `Parser` reads from it.

All repetition goes through `Parser.iterate`, which goes round again only if the round has left
fewer tokens. This is the one place where parsing needs a termination argument.
-/

namespace Abacus

/-- The tokens before the end of the text, where the text ends, the token read last, and the
complaints so far. -/
structure TokenStream where
  previous? : Option Token
  rest : List Token
  finish : Span
  complaints : Array Diagnostic

namespace TokenStream

/-- The stream of the tokens up to the first end of file. -/
def ofTokens (tokens : List Token) : TokenStream where
  previous? := none
  rest := tokens.takeWhile (·.lexeme ≠ .eof)
  finish := ((tokens.find? (·.lexeme = .eof)).map Token.span).getD Span.none
  complaints := #[]

/-- The next token; the end of file when there is none. -/
def current (s : TokenStream) : Token := s.rest.headD ⟨.eof, s.finish⟩

/-- The token after the next one. -/
def second (s : TokenStream) : Token := (s.rest.drop 1).headD ⟨.eof, s.finish⟩

/-- Steps over the next token. The end of file is never passed. -/
def advance (s : TokenStream) : TokenStream :=
  match s.rest with
  | [] => s
  | token :: rest => { s with previous? := some token, rest := rest }

/-- The place of the token read last, or of the next one at the very start. -/
def previousSpan (s : TokenStream) : Span :=
  match s.previous? with
  | some token => token.span
  | none => s.current.span

/-- Adds a complaint. -/
def complain (s : TokenStream) (d : Diagnostic) : TokenStream :=
  { s with complaints := s.complaints.push d }

@[simp] theorem rest_advance (s : TokenStream) : s.advance.rest = s.rest.tail := by
  unfold advance
  split <;> simp_all

@[simp] theorem rest_complain (s : TokenStream) (d : Diagnostic) :
    (s.complain d).rest = s.rest := rfl

end TokenStream

/-- Reads from a token stream. -/
abbrev Parser (α : Type) := StateM TokenStream α

namespace Parser

/-! ## Looking at the stream -/

/-- What comes next. -/
def peek : Parser Lexeme := return (← get).current.lexeme

/-- What comes after that. -/
def peekSecond : Parser Lexeme := return (← get).second.lexeme

/-- Where the next token stands. -/
def currentSpan : Parser Span := return (← get).current.span

/-- The span from `start` through the token read last. -/
def spanFrom (start : Span) : Parser Span := return start.merge (← get).previousSpan

/-- Was the token read last the end of a block? -/
def afterDedent : Parser Bool := return ((← get).previous?.map Token.lexeme) == some .dedent

/-! ## Moving on -/

/-- Steps over the next token. -/
def advance : Parser Unit := modify TokenStream.advance

/-- Complains about the next token. -/
def complain (message : String) : Parser Unit :=
  modify fun s => s.complain (.error message s.current.span)

/-- Complains about the next token and says what would help. -/
def complainWithHelp (message help : String) : Parser Unit :=
  modify fun s => s.complain ((Diagnostic.error message s.current.span).withHelp help)

/-- Steps over the next token if it is `lexeme`; says whether it was. -/
def eat (lexeme : Lexeme) : Parser Bool := do
  if (← peek) = lexeme then
    advance
    return true
  else return false

/-- Steps over `lexeme`, or complains that something else comes. Gives the place of the next token
either way. -/
def expect (lexeme : Lexeme) : Parser Span := do
  let span ← currentSpan
  let found ← peek
  if found = lexeme then advance
  else complain ("expected " ++ lexeme.description ++ ", found " ++ found.description)
  return span

/-- Steps over a name, or complains that something else comes and makes one up. -/
def expectIdent : Parser String := do
  match ← peek with
  | .ident name =>
    advance
    return name
  | found =>
    complain ("expected identifier, found " ++ found.description)
    return "_error_"

/-! ## Going round -/

/-- Runs `step` on the accumulated value until it asks to stop. A round that has not shortened the
stream is the last one. -/
def iterate {β : Type} (step : β → Parser (β × Bool)) (acc : β) : Parser β := fun s =>
  let result := step acc s
  if _h : result.1.2 = true ∧ result.2.rest.length < s.rest.length then
    iterate step result.1.1 result.2
  else (result.1.1, result.2)
termination_by s => s.rest.length
decreasing_by exact _h.2

/-- Steps over line ends. -/
def skipNewlines : Parser Unit :=
  iterate (fun _ => return ((), ← eat .newline)) ()

/-- Steps over everything up to the end of the line, of the block or of the text. -/
def skipLine : Parser Unit :=
  iterate (fun _ => do
    match ← peek with
    | .newline | .eof | .dedent => return ((), false)
    | _ =>
      advance
      return ((), true)) ()

/-- Names or trees separated by commas, at least one. -/
def commaSeparated {α : Type} (element : Parser α) : Parser (List α) := do
  let elements ← iterate (fun (sofar : Array α) => do
    let next ← element
    return (sofar.push next, ← eat .comma)) #[]
  return elements.toList

/-- A list in parentheses: nothing, or elements separated by commas. Gives the place of the
opening parenthesis and the elements. -/
def parenthesised {α : Type} (element : Parser α) : Parser (Span × List α) := do
  let start ← expect .leftParen
  let elements ← if (← peek) = .rightParen then pure [] else commaSeparated element
  let _ ← expect .rightParen
  return (start, elements)

/-! ## Nesting -/

/-- How many levels expressions and bodies may nest. -/
def maxNesting : Nat := 256

/-- Complains that the nesting is too deep. -/
def complainTooDeep : Parser Unit :=
  complainWithHelp "nesting depth exceeded (maximum 256 levels)"
    "simplify the program by extracting deeply nested code into functions"

end Parser

end Abacus
