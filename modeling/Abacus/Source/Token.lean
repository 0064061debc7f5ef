import Abacus.Source.Span

/-!
# Tokens

`Lexeme` lists what a source text is made of: keywords, symbols, literals, names, and the layout
marks that stand for line ends and for changes of indentation. A `Token` is a lexeme at a place.
-/

namespace Abacus

/-- The pieces of a source text. -/
inductive Lexeme where
  | fnWord
  | letWord
  | ifWord
  | elseWord
  | forWord
  | returnWord
  | leftParen
  | rightParen
  | comma
  | colon
  | equals
  | equalsEquals
  | plus
  | minus
  | star
  | slash
  | less
  | greater
  | integer (value : Int64)
  | floating (value : Float)
  | ident (name : String)
  | newline
  | indent
  | dedent
  | eof
  deriving DecidableEq, Inhabited

namespace Lexeme

/-- The keyword of that spelling, if there is one. -/
def keyword? : String → Option Lexeme
  | "fn" => some fnWord
  | "let" => some letWord
  | "if" => some ifWord
  | "else" => some elseWord
  | "for" => some forWord
  | "return" => some returnWord
  | _ => none

/-- The symbol that a single character spells, if it spells one. -/
def symbol? : Char → Option Lexeme
  | '(' => some leftParen
  | ')' => some rightParen
  | ',' => some comma
  | ':' => some colon
  | '=' => some equals
  | '+' => some plus
  | '-' => some minus
  | '*' => some star
  | '/' => some slash
  | '<' => some less
  | '>' => some greater
  | _ => none

/-- What a message calls the lexeme. -/
def description : Lexeme → String
  | fnWord => "'fn'"
  | letWord => "'let'"
  | ifWord => "'if'"
  | elseWord => "'else'"
  | forWord => "'for'"
  | returnWord => "'return'"
  | leftParen => "'('"
  | rightParen => "')'"
  | comma => "','"
  | colon => "':'"
  | equals => "'='"
  | equalsEquals => "'=='"
  | plus => "'+'"
  | minus => "'-'"
  | star => "'*'"
  | slash => "'/'"
  | less => "'<'"
  | greater => "'>'"
  | integer _ => "integer literal"
  | floating _ => "floating literal"
  | ident _ => "identifier"
  | newline => "end of line"
  | indent => "indentation"
  | dedent => "end of indented block"
  | eof => "end of file"

end Lexeme

/-- A lexeme at its place. -/
structure Token where
  lexeme : Lexeme
  span : Span
  deriving DecidableEq, Inhabited

end Abacus
