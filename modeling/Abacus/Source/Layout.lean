import Abacus.Number.Literal
import Abacus.Source.Diagnostic
import Abacus.Source.Token

/-!
# From text to tokens

A source text is read line by line. The indentation of every line that holds more than blanks and a
comment is compared with the stack of open indentation levels: a deeper line opens a level
(`indent`), a shallower one closes levels (`dedent` for each), and every such line ends in
`newline`. Blank lines and comment lines leave no token.

* `Cursor` — the unread text with its place;
* `Item` — a token, or a complaint about a piece of text that is none;
* `scanToken` — one token from a nonblank character;
* `layout` — what a change of indentation gives;
* `lineStart`, `lineRest` — the two modes of the reader;
* `scan` — a whole text.
-/

namespace Abacus

/-! ## Places while reading -/

/-- The unread part of a text, with the byte offset, the line, and the byte offset at which that
line starts. -/
structure Cursor where
  rest : List Char
  offset : Nat
  line : Nat
  lineStart : Nat
  deriving DecidableEq, Repr

namespace Cursor

/-- The start of a text. -/
def ofText (text : String) : Cursor := ⟨text.toList, 0, 1, 0⟩

/-- The number of bytes of a list of characters. -/
def byteLength (chars : List Char) : Nat := chars.foldr (fun c bytes => c.utf8Size + bytes) 0

/-- Steps over the first `count` characters, which stay on the line. -/
def advance (c : Cursor) (count : Nat) : Cursor :=
  { c with rest := c.rest.drop count, offset := c.offset + byteLength (c.rest.take count) }

/-- Steps over the characters up to the first that fails `p`. -/
def skipWhile (c : Cursor) (p : Char → Bool) : Cursor :=
  c.advance (c.rest.takeWhile p).length

/-- Steps over the line end that comes next. -/
def nextLine (c : Cursor) : Cursor :=
  { rest := c.rest.drop 1, offset := c.offset + 1, line := c.line + 1, lineStart := c.offset + 1 }

/-- The span from `c` to `stop`, at the line and the column of `c`. -/
def spanTo (c : Cursor) (stop : Cursor) : Span :=
  ⟨c.offset, stop.offset, c.line, c.offset - c.lineStart + 1⟩

@[simp] theorem rest_advance (c : Cursor) (n : Nat) : (c.advance n).rest = c.rest.drop n := rfl

@[simp] theorem rest_nextLine (c : Cursor) : c.nextLine.rest = c.rest.drop 1 := rfl

theorem length_rest_advance (c : Cursor) (n : Nat) :
    (c.advance n).rest.length = c.rest.length - n := by
  simp

theorem length_rest_skipWhile_le (c : Cursor) (p : Char → Bool) :
    (c.skipWhile p).rest.length ≤ c.rest.length := by
  simp [skipWhile]

/-- Skipping takes the next character if it passes the test. -/
theorem length_rest_skipWhile_lt {c : Cursor} {p : Char → Bool} {d : Char} {rest : List Char}
    (h : c.rest = d :: rest) (hd : p d = true) :
    (c.skipWhile p).rest.length < c.rest.length := by
  have htaken : 0 < (c.rest.takeWhile p).length := by
    rw [h, List.takeWhile_cons_of_pos hd]
    exact Nat.succ_pos _
  have hrest : 0 < c.rest.length := by
    rw [h]
    exact Nat.succ_pos _
  rw [skipWhile, length_rest_advance]
  omega

end Cursor

/-! ## Characters -/

/-- The characters that separate tokens within a line. -/
def isBlank (c : Char) : Bool := c = ' ' || c = '\t' || c = '\r'

/-- The characters that start a name: the ASCII letters and the underscore. -/
def isNameStart (c : Char) : Bool := c.isAlpha || c = '_'

/-- The characters that continue a name: those that start one, and the ASCII digits. -/
def isNamePart (c : Char) : Bool := c.isAlphanum || c = '_'

/-! ## Items -/

/-- What the reader finds: a token, or a piece of text that it has to complain about. -/
inductive Item where
  | token (token : Token)
  | complaint (diagnostic : Diagnostic)
  deriving DecidableEq

namespace Item

/-- The token of an item. -/
def token? : Item → Option Token
  | token t => some t
  | complaint _ => none

/-- The complaint of an item. -/
def complaint? : Item → Option Diagnostic
  | token _ => none
  | complaint d => some d

end Item

/-! ## One token -/

/-- The characters of a number: digits, and a fraction if a point and a digit follow. -/
def numberParts (chars : List Char) : List Char × Option (List Char) :=
  let whole := chars.takeWhile Char.isDigit
  match chars.dropWhile Char.isDigit with
  | '.' :: d :: more =>
    if d.isDigit then (whole, some (d :: more.takeWhile Char.isDigit)) else (whole, none)
  | _ => (whole, none)

/-- The next token and the number of characters it takes. The text starts with a character that is
neither a blank, nor a line end, nor the start of a comment; names and numbers are as long as
possible. The errors are the messages for pieces that are no token. -/
def lexemeAt : List Char → Except String Lexeme × Nat
  | [] => (.error "invalid token", 1)
  | c :: rest =>
    if isNameStart c then
      let name := c :: rest.takeWhile isNamePart
      let text := String.ofList name
      (.ok ((Lexeme.keyword? text).getD (.ident text)), name.length)
    else if c.isDigit then
      match numberParts (c :: rest) with
      | (whole, some fraction) =>
        (.ok (.floating (Literal.float whole fraction 0)), whole.length + 1 + fraction.length)
      | (whole, none) =>
        match Literal.integer? whole with
        | some value => (.ok (.integer value), whole.length)
        | none => (.error "integer literal out of range", whole.length)
    else if c = '=' && rest.head? = some '=' then (.ok .equalsEquals, 2)
    else match Lexeme.symbol? c with
      | some symbol => (.ok symbol, 1)
      | none => (.error "invalid token", 1)

/-- The whole part of a number is its leading digits. -/
theorem numberParts_fst (chars : List Char) :
    (numberParts chars).1 = chars.takeWhile Char.isDigit := by
  unfold numberParts
  split
  · split <;> rfl
  · rfl

/-- A token takes at least one character. -/
theorem lexemeAt_pos (chars : List Char) : 0 < (lexemeAt chars).2 := by
  unfold lexemeAt
  split
  · simp
  · next c rest =>
    split
    · simp
    · split
      · next hd =>
        have hw : 0 < (numberParts (c :: rest)).1.length := by simp [numberParts_fst, hd]
        split
        · exact Nat.lt_add_right _ (Nat.succ_pos _)
        · next h =>
          rw [h] at hw
          split <;> simpa using hw
      · split
        · simp
        · split <;> simp

/-- The item at a cursor and the cursor after it. -/
def scanToken (c : Cursor) : Item × Cursor :=
  let (result, count) := lexemeAt c.rest
  let after := c.advance count
  match result with
  | .ok lexeme => (.token ⟨lexeme, c.spanTo after⟩, after)
  | .error message => (.complaint (.error message (c.spanTo after)), after)

theorem scanToken_snd (c : Cursor) : (scanToken c).2 = c.advance (lexemeAt c.rest).2 := by
  rcases h : lexemeAt c.rest with ⟨result, count⟩
  cases result <;> simp [scanToken, h]

/-- Reading a token shortens the text. -/
theorem length_rest_scanToken_lt (c : Cursor) (h : c.rest ≠ []) :
    (scanToken c).2.rest.length < c.rest.length := by
  have hpos := lexemeAt_pos c.rest
  have hlen : 0 < c.rest.length := List.length_pos_iff.2 h
  rw [scanToken_snd, Cursor.length_rest_advance]
  omega

/-! ## Indentation -/

/-- The width of an indentation: its spaces. Tabs and carriage returns have no width. -/
def indentWidth (blanks : List Char) : Nat := blanks.count ' '

/-- A complaint for every tab among the first `count` characters at the cursor. -/
def tabComplaints (c : Cursor) : Nat → List Item
  | 0 => []
  | count + 1 =>
    let after := c.advance 1
    let later := tabComplaints after count
    if c.rest.head? = some '\t' then
      .complaint (.error "tabs are not allowed in indentation" (c.spanTo after)) :: later
    else later

/-- What a line of indentation `width` does to the open levels (innermost first): the items it
gives, all at `span`, and the levels after it. A deeper line opens a level; a shallower one closes
every deeper level, and if its own level was never opened it is opened with a complaint. -/
def layout (levels : List Nat) (width : Nat) (span : Span) : List Item × List Nat :=
  if levels.headD 0 < width then ([.token ⟨.indent, span⟩], width :: levels)
  else
    let closed := levels.takeWhile (width < ·)
    let kept := levels.dropWhile (width < ·)
    let dedents := closed.map fun _ => Item.token ⟨.dedent, span⟩
    if kept.head? = some width then (dedents, kept)
    else
      let complaint := (Diagnostic.error "inconsistent indentation" span).withHelp
        "dedent to the same column as an enclosing block"
      (dedents ++ [.complaint complaint], width :: kept)

/-- What the end of the text gives: a `dedent` for every level but the outermost, then `eof`. -/
def closing (levels : List Nat) (c : Cursor) : List Item :=
  let span := c.spanTo c
  (levels.drop 1).map (fun _ => Item.token ⟨.dedent, span⟩) ++ [.token ⟨.eof, span⟩]

/-! ## Lines -/

mutual

/-- Reads from the start of a line, with the open levels of indentation. -/
def lineStart (levels : List Nat) (c : Cursor) : List Item :=
  let blanks := c.rest.takeWhile isBlank
  let tabs := tabComplaints c blanks.length
  let text := c.skipWhile isBlank
  match _h : text.rest with
  | [] => tabs ++ closing levels text
  | '\n' :: _ => tabs ++ lineStart levels text.nextLine
  | '#' :: _ =>
    let after := text.skipWhile (· != '\n')
    match _h' : after.rest with
    | [] => tabs ++ closing levels after
    | _ :: _ => tabs ++ lineStart levels after.nextLine
  | _ :: _ =>
    let (items, inner) := layout levels (indentWidth blanks) (c.spanTo text)
    tabs ++ items ++ lineRest inner text
termination_by 2 * c.rest.length + 1
decreasing_by
  · have h1 := Cursor.length_rest_skipWhile_le c isBlank
    have h2 := congrArg List.length _h
    simp only [List.length_cons, text] at h2
    simp only [Cursor.rest_nextLine, List.length_drop]
    omega
  · have h1 := Cursor.length_rest_skipWhile_le c isBlank
    have h2 := Cursor.length_rest_skipWhile_le (c.skipWhile isBlank) (· != '\n')
    have h3 := congrArg List.length _h'
    simp only [List.length_cons, after, text] at h3
    simp only [Cursor.rest_nextLine, List.length_drop]
    omega
  · have h1 := Cursor.length_rest_skipWhile_le c isBlank
    omega

/-- Reads on within a line that has tokens, with the open levels of indentation. -/
def lineRest (levels : List Nat) (c : Cursor) : List Item :=
  let text := c.skipWhile isBlank
  match _h : text.rest with
  | [] => .token ⟨.newline, text.spanTo text⟩ :: closing levels text
  | '\n' :: _ => .token ⟨.newline, text.spanTo (text.advance 1)⟩ :: lineStart levels text.nextLine
  | '#' :: _ => lineRest levels (text.skipWhile (· != '\n'))
  | _ :: _ => (scanToken text).1 :: lineRest levels (scanToken text).2
termination_by 2 * c.rest.length
decreasing_by
  · have h1 := Cursor.length_rest_skipWhile_le c isBlank
    have h2 := congrArg List.length _h
    simp only [List.length_cons, text] at h2
    simp only [Cursor.rest_nextLine, List.length_drop]
    omega
  · have h1 := Cursor.length_rest_skipWhile_le c isBlank
    have h2 := Cursor.length_rest_skipWhile_lt (p := (· != '\n')) _h (by decide)
    simp only [text] at h2 ⊢
    omega
  · have h1 := Cursor.length_rest_skipWhile_le c isBlank
    have h2 := length_rest_scanToken_lt text (by simp [_h])
    simp only [text] at h2 ⊢
    omega

end

/-- The tokens of a text and the complaints about it, each in source order. -/
structure Scanned where
  tokens : List Token
  complaints : List Diagnostic

/-- All items of a text, in source order. -/
def scanItems (text : String) : List Item := lineStart [0] (Cursor.ofText text)

/-- Reads a whole text. -/
def scan (text : String) : Scanned :=
  let items := scanItems text
  ⟨items.filterMap Item.token?, items.filterMap Item.complaint?⟩

end Abacus
