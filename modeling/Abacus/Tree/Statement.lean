import Abacus.Source.Layout
import Abacus.Tree.Expression

/-!
# Parsing statements, bodies and programs

A statement ends at the end of its line, at the end of the text, or with the block that it ends
in. A body is an indented block on the following lines or one statement on the same line.

* `statement` — one statement, given how to read expressions and bodies inside it;
* `body` — a body with some room for nesting;
* `program` — a whole text;
* `parse` — from text to tree, or to the complaints.
-/

namespace Abacus.Parser

/-- Ends a statement. What is left over on its line is complained about and stepped over. -/
def endStatement : Parser Unit := do
  if ← eat .newline then return ()
  let found ← peek
  if found = .eof || found = .dedent || (← afterDedent) then return ()
  complain ("expected end of line, found " ++ found.description)
  skipLine
  let _ ← eat .newline

/-- A function: its name, its parameters and its body. -/
def fnDef (body : Parser Tree) : Parser Tree := do
  let start ← expect .fnWord
  let name ← expectIdent
  let (_, parameters) ← parenthesised expectIdent
  let inner ← body
  return .node (← spanFrom start) (.fnDef name parameters inner)

/-- Steps up to an `else` on the same line or at the start of the next one; says whether there is
one. -/
def findElse : Parser Bool := do
  match ← peek with
  | .elseWord => return true
  | .newline =>
    if (← peekSecond) = .elseWord then
      advance
      return true
    else return false
  | _ => return false

/-- A condition, the body for when it holds, and possibly one for when it does not. -/
def ifElse (expr body : Parser Tree) : Parser Tree := do
  let start ← expect .ifWord
  let condition ← expr
  let thenBody ← body
  let elseBody ←
    if ← findElse then
      let _ ← expect .elseWord
      some <$> body
    else pure none
  return .node (← spanFrom start) (.ifElse condition thenBody elseBody)

/-- A counting loop. -/
def forLoop (expr body : Parser Tree) : Parser Tree := do
  let start ← expect .forWord
  let index ← expectIdent
  let _ ← expect .less
  let bound ← expr
  let inner ← body
  return .node (← spanFrom start) (.forLoop index bound inner)

/-- A new variable and its value. -/
def letVar (expr : Parser Tree) : Parser Tree := do
  let start ← currentSpan
  advance
  let name ← expectIdent
  let _ ← expect .equals
  let value ← expr
  return .node (← spanFrom start) (.letVar name value)

/-- The value that a function gives back. -/
def giveBack (expr : Parser Tree) : Parser Tree := do
  let start ← currentSpan
  advance
  let value ← expr
  return .node (← spanFrom start) (.giveBack value)

/-- A new value for the variable `name`; the name and the `=` are still to be read. -/
def setVar (expr : Parser Tree) (name : String) : Parser Tree := do
  let start ← currentSpan
  advance
  advance
  let value ← expr
  return .node (← spanFrom start) (.setVar name value)

/-- One statement. -/
def statement (expr body : Parser Tree) : Parser Tree := do
  match ← peek with
  | .letWord => letVar expr
  | .returnWord => giveBack expr
  | .ifWord => ifElse expr body
  | .forWord => forLoop expr body
  | .fnWord =>
    complainWithHelp "functions may only be defined at the top level"
      "move this definition out of the enclosing body"
    fnDef body
  | .ident name =>
    if (← peekSecond) = .equals then setVar expr name else expr
  | _ => expr

/-- The statements of a block, up to the end of the block, which is stepped over. -/
def block (item : Parser Tree) : Parser (List Tree) := do
  let items ← iterate (fun (sofar : Array Tree) => do
    skipNewlines
    if ← eat .dedent then return (sofar, false)
    else if (← peek) = .eof then return (sofar, false)
    else
      let next ← item
      endStatement
      return (sofar.push next, true)) #[]
  return items.toList

/-- A body, after an optional colon, with the given room for nesting. -/
def body : Nat → Parser Tree
  | 0 => do
    let start ← currentSpan
    let _ ← eat .colon
    complainTooDeep
    return .node start (.list [])
  | room + 1 => do
    let start ← currentSpan
    let _ ← eat .colon
    let item := statement (expression room 0) (body room)
    let items ←
      if ← eat .newline then
        let _ ← expect .indent
        block item
      else
        pure [← item]
    return .node (← spanFrom start) (.list items)

/-- One round at the top level: an item and its end, or indentation that belongs to nothing. -/
def topLevelStep (sofar : Array Tree) : Parser (Array Tree × Bool) := do
  skipNewlines
  match ← peek with
  | .eof => return (sofar, false)
  | .indent | .dedent =>
    complain "unexpected indentation"
    advance
    return (sofar, true)
  | .fnWord =>
    let item ← fnDef (body maxNesting)
    endStatement
    return (sofar.push item, true)
  | _ =>
    let item ← statement (expression maxNesting 0) (body maxNesting)
    endStatement
    return (sofar.push item, true)

/-- A whole text: functions and statements in any order. -/
def program : Parser Tree := do
  let start ← currentSpan
  let items ← iterate topLevelStep #[]
  return .node (← spanFrom start) (.program items.toList)

end Abacus.Parser

namespace Abacus

/-- The tree of a list of tokens, or the complaints about them. -/
def parseTokens (tokens : List Token) : Except (List Diagnostic) Tree :=
  let (tree, after) := Parser.program (TokenStream.ofTokens tokens)
  if after.complaints.isEmpty then .ok tree else .error after.complaints.toList

/-- The tree of a source text. A text that does not fall into tokens is not parsed: the complaints
are then those of the reader alone. -/
def parse (text : String) : Except (List Diagnostic) Tree :=
  let scanned := scan text
  if scanned.complaints.isEmpty then parseTokens scanned.tokens else .error scanned.complaints

end Abacus
