import Abacus.Proofs.Grammar.Programs
import Abacus.Proofs.Source.LineByLine

/-!
# Printed programs are read as they are spelt

A program is printed with one statement on each line, every body indented further than the line that it
belongs to, and `else` at the column of its `if`. The lines of the text give the lexemes of the program:
what a block gives for its end comes with the line behind it, which is not indented as far.

* `Expression.text`, `Statement.lines`, `print` — printing;
* `Writes` — a text is read as given lexemes in front of anything that does not go on with it;
* `Expression.writes` — expressions;
* `Low` — lines that start no further right than a column;
* `statement_lines`, `body_lines`, `readLines_print` — statements, bodies and programs.
-/

namespace Abacus.Grammar

/-! ## Printing -/

/-- With or without parentheses. -/
def encloseText (enclosed : Bool) (text : List Char) : List Char :=
  if enclosed then '(' :: (text ++ [')']) else text

/-- Texts with commas between them, in parentheses. -/
def parenthesiseText (texts : List (List Char)) : List Char :=
  '(' :: ([',', ' '].intercalate texts ++ [')'])

/-- Words with a blank between any two of them. -/
def spaced (words : List (List Char)) : List Char := [' '].intercalate words

mutual

/-- The text of an expression, with blanks around operators and behind commas. -/
def Expression.text : Expression → List Char
  | .integer value => Nat.toDigits 10 value
  | .floating whole fraction => whole.chars ++ '.' :: fraction.chars
  | .variable name => name.text.toList
  | .infixOp op left right =>
    spaced [encloseText (leftEnclosed op left) left.text, op.text.toList,
      encloseText (rightEnclosed op right) right.text]
  | .negate operand => '-' :: encloseText operand.isInfix operand.text
  | .call name arguments => name.text.toList ++ parenthesiseText arguments.texts

/-- The texts of arguments. -/
def Arguments.texts : Arguments → List (List Char)
  | .nil => []
  | .cons first rest => first.text :: rest.texts

end

/-- A line that starts at a column. -/
def indented (column : Nat) (text : List Char) : List Char := List.replicate column ' ' ++ text

mutual

/-- The lines of a statement at a column. Bodies are indented by `step` more. -/
def Statement.lines (step : Nat) : Statement → Nat → List (List Char)
  | .letVar name value, column =>
    [indented column (spaced ["let".toList, name.text.toList, ['='], value.text])]
  | .setVar name value, column => [indented column (spaced [name.text.toList, ['='], value.text])]
  | .giveBack value, column => [indented column (spaced ["return".toList, value.text])]
  | .expression value, column => [indented column value.text]
  | .ifThen condition thenBody, column =>
    indented column (spaced ["if".toList, condition.text]) :: thenBody.lines step (column + step)
  | .ifElse condition thenBody elseBody, column =>
    indented column (spaced ["if".toList, condition.text]) :: (thenBody.lines step (column + step) ++
      indented column "else".toList :: elseBody.lines step (column + step))
  | .forLoop index bound body, column =>
    indented column (spaced ["for".toList, index.text.toList, ['<'], bound.text]) ::
      body.lines step (column + step)

/-- The lines of the statements of a body at a column. -/
def Body.lines (step : Nat) : Body → Nat → List (List Char)
  | .last s, column => s.lines step column
  | .cons first rest, column => first.lines step column ++ rest.lines step column

end

/-- The lines of what stands at the top level. -/
def TopLevel.lines (step : Nat) : TopLevel → List (List Char)
  | .function name parameters body =>
    indented 0 (spaced ["fn".toList,
      name.text.toList ++ parenthesiseText (parameters.map fun p => p.text.toList)]) ::
      body.lines step step
  | .statement s => s.lines step 0

/-- The text of a program, with bodies indented by `step`. -/
def print (step : Nat) (p : Program) : String :=
  String.ofList ((p.flatMap (TopLevel.lines step)).flatMap (· ++ ['\n']))

/-! ## Texts and lexemes -/

/-- In front of what does not go on with it, the text is read as the lexemes. -/
def Writes (text : List Char) (ls : List Lexeme) : Prop :=
  ∀ tail, Delimits tail → pieces (text ++ tail) = ls.map Item.of ++ pieces tail

section

variable {text text' tail : List Char} {ls ls' : List Lexeme} {c : Char} {l : Lexeme}

theorem delimits_nil : Delimits [] := by simp [Delimits]

theorem delimits_cons (h : isNamePart c = false ∧ c ≠ '.' ∧ c ≠ '=') : Delimits (c :: tail) := by
  intro d hd
  cases hd
  exact h

theorem pieces_blank (tail : List Char) : pieces (' ' :: tail) = pieces tail := by
  rw [pieces, pieces.eq_1 tail, List.dropWhile_cons_of_pos rfl]

/-- What starts with neither a blank nor a comment is read as a token. -/
theorem pieces_token {n : Nat} (hc : isBlank c = false ∧ c ≠ '#')
    (h : lexemeAt (c :: tail) = (.ok l, n)) :
    pieces (c :: tail) = .of l :: pieces ((c :: tail).drop n) := by
  have hskip : (c :: tail).dropWhile isBlank = c :: tail :=
    List.dropWhile_cons_of_neg (by simp [hc.1])
  have htext : ¬ NoText (c :: tail) := by simp [NoText, hc.2]
  rw [pieces, hskip, dif_neg htext, h]
  rfl

/-- A token that the text is. -/
theorem writes_token (hc : isBlank c = false ∧ c ≠ '#')
    (h : lexemeAt (c :: text) = (.ok l, (c :: text).length)) : Writes (c :: text) [l] := by
  intro tail htail
  have hlexeme := lexemeAt_append_tail (List.cons_ne_nil c text) htail
  rw [h, List.cons_append] at hlexeme
  have hpieces := pieces_token hc hlexeme
  rwa [← List.cons_append, List.drop_left] at hpieces

/-- A token of one character, whatever follows. -/
theorem pieces_symbol (h : lexemeAt (c :: tail) = (.ok l, 1)) (hc : isBlank c = false ∧ c ≠ '#') :
    pieces (c :: tail) = .of l :: pieces tail := pieces_token hc h

theorem Writes.append (h : Writes text ls) (h' : Writes text' ls')
    (hdelimits : ∀ tail, Delimits tail → Delimits (text' ++ tail)) : Writes (text ++ text') (ls ++ ls') := by
  intro tail htail
  rw [List.append_assoc, h _ (hdelimits tail htail), h' tail htail, List.map_append, List.append_assoc]

/-- A blank in front of a text is not read. -/
theorem Writes.blank (h : Writes text ls) : Writes (' ' :: text) ls := by
  intro tail htail
  rw [List.cons_append, pieces_blank]
  exact h tail htail

end

/-! ## Words -/

theorem isBlank_of_isNamePart {c : Char} (h : isNamePart c = true) : isBlank c = false ∧ c ≠ '#' := by
  constructor
  · simp only [isBlank, Bool.or_eq_false_iff, decide_eq_false_iff_not]
    refine ⟨⟨?_, ?_⟩, ?_⟩ <;> rintro rfl <;> cases h
  · rintro rfl
    cases h

theorem isNamePart_of_isNameStart {c : Char} (h : isNameStart c = true) : isNamePart c = true := by
  simp only [isNameStart, isNamePart, Char.isAlphanum, Bool.or_eq_true] at h ⊢
  exact h.imp_left .inl

theorem isNamePart_of_isDigit {c : Char} (h : c.isDigit = true) : isNamePart c = true := by
  simp [isNamePart, Char.isAlphanum, h]

theorem takeWhile_of_all {p : Char → Bool} {chars : List Char} (h : ∀ c ∈ chars, p c = true) :
    chars.takeWhile p = chars := List.takeWhile_eq_self_iff.2 h

/-- A name, or a keyword. -/
theorem writes_word {text : String} (h : isName text.toList = true) :
    Writes text.toList [(Lexeme.keyword? text).getD (.ident text)] := by
  cases hchars : text.toList with
  | nil => simp [hchars, isName] at h
  | cons c rest =>
    rw [hchars, isName, Bool.and_eq_true, List.all_eq_true] at h
    refine writes_token (isBlank_of_isNamePart (isNamePart_of_isNameStart h.1)) ?_
    have htext : String.ofList (c :: rest) = text := by rw [← hchars, String.ofList_toList]
    simp only [lexemeAt, h.1, if_true, takeWhile_of_all h.2, htext]

theorem Name.writes (name : Name) : Writes name.text.toList [.ident name.text] := by
  have h := writes_word name.wellFormed
  rwa [name.unreserved] at h

theorem isNameStart_of_isDigit {c : Char} (h : c.isDigit = true) : isNameStart c = false := by
  have hc : 48 ≤ c.val ∧ c.val ≤ 57 := by simpa [Char.isDigit] using h
  have hword : c ≠ '_' := by
    rintro rfl
    cases h
  have hupper : ¬ 'A'.val ≤ c.val := fun hle => absurd (UInt32.le_trans hle hc.2) (by decide)
  have hlower : ¬ 'a'.val ≤ c.val := fun hle => absurd (UInt32.le_trans hle hc.2) (by decide)
  have halpha : c.isAlpha = false := by
    show (decide ('A'.val ≤ c.val ∧ c.val ≤ 'Z'.val) || 'a'.val ≤ c.val && c.val ≤ 'z'.val) = false
    simp only [hupper, hlower, false_and, decide_false, Bool.false_and, Bool.or_false]
  rw [isNameStart, halpha, decide_eq_false hword]
  rfl

/-- Digits are read as far as they go. -/
theorem digits_append {whole : List Char} (h : ∀ c ∈ whole, c.isDigit = true) (rest : List Char)
    (hrest : ∀ c ∈ rest.head?, c.isDigit = false) :
    (whole ++ rest).takeWhile Char.isDigit = whole ∧ (whole ++ rest).dropWhile Char.isDigit = rest := by
  rw [takeWhile_append_tail hrest, dropWhile_append_tail hrest, takeWhile_of_all h,
    List.dropWhile_eq_nil_iff.2 h]
  exact ⟨rfl, rfl⟩

theorem writes_number {c : Char} {rest : List Char} {l : Lexeme} (hc : c.isDigit = true)
    (h : (match numberParts (c :: rest) with
      | (whole, some fraction) =>
        (Except.ok (.floating (Literal.float whole fraction 0)), whole.length + 1 + fraction.length)
      | (whole, none) =>
        match Literal.integer? whole with
        | some value => (.ok (.integer value), whole.length)
        | none => (.error "integer literal out of range", whole.length)) =
      ((.ok l, (c :: rest).length) : Except String Lexeme × Nat)) : Writes (c :: rest) [l] := by
  refine writes_token (isBlank_of_isNamePart (isNamePart_of_isDigit hc)) ?_
  rw [lexemeAt, if_neg (by simp [isNameStart_of_isDigit hc]), if_pos hc]
  exact h

/-- Digits in front of no point are an integer, if it is not too large. -/
theorem writes_integer {value : Nat} (h : value < 2 ^ 63) :
    Writes (Nat.toDigits 10 value) [.integer (Int64.ofNat value)] := by
  have hdigits : ∀ c ∈ Nat.toDigits 10 value, c.isDigit = true :=
    fun c hc => Nat.isDigit_of_mem_toDigits (b := 10) (by decide) (by decide) hc
  have hvalue : Literal.integer? (Nat.toDigits 10 value) = some (Int64.ofNat value) := by
    have hsame : Literal.digitsValue (Nat.toDigits 10 value) = value :=
      Nat.ofDigitChars_ten_toDigits
    unfold Literal.integer?
    rw [hsame]
    exact if_pos (Nat.le_pred_of_lt h)
  obtain ⟨c, rest, hcons⟩ := List.exists_cons_of_ne_nil (Nat.toDigits_ne_nil (n := value) (b := 10))
  have hparts : numberParts (Nat.toDigits 10 value) = (Nat.toDigits 10 value, none) := by
    obtain ⟨htake, hdrop⟩ := digits_append hdigits [] (by simp)
    rw [List.append_nil] at htake hdrop
    rw [numberParts, htake, hdrop]
  rw [hcons] at hdigits hvalue hparts ⊢
  refine writes_number (hdigits c List.mem_cons_self) ?_
  rw [hparts]
  dsimp only
  rw [hvalue]

/-- Digits, a point and digits. -/
theorem writes_floating (whole fraction : Digits) :
    Writes (whole.chars ++ '.' :: fraction.chars)
      [.floating (Literal.float whole.chars fraction.chars 0)] := by
  have hparts : numberParts (whole.chars ++ '.' :: fraction.chars) =
      (whole.chars, some fraction.chars) := by
    obtain ⟨htake, hdrop⟩ := digits_append whole.decimal ('.' :: fraction.chars) (by simp)
    obtain ⟨d, more, hcons⟩ := List.exists_cons_of_ne_nil fraction.nonempty
    have hdecimal := fraction.decimal
    rw [hcons, List.forall_mem_cons] at hdecimal
    rw [numberParts, htake, hdrop, hcons]
    simp only [hdecimal.1, if_true, takeWhile_of_all hdecimal.2]
  obtain ⟨c, rest, hcons⟩ := List.exists_cons_of_ne_nil whole.nonempty
  have hc : c.isDigit = true := whole.decimal c (by simp [hcons])
  have hsplit : whole.chars ++ '.' :: fraction.chars = c :: (rest ++ '.' :: fraction.chars) := by
    rw [hcons, List.cons_append]
  have hlength : whole.chars.length + 1 + fraction.chars.length =
      (whole.chars ++ '.' :: fraction.chars).length := by
    rw [List.length_append, List.length_cons]
    omega
  rw [hsplit] at hparts hlength ⊢
  refine writes_number hc ?_
  rw [hparts]
  dsimp only
  rw [hlength]

/-! ## Expressions -/

/-- Texts with their lexemes. -/
def WritesAll : List (List Char) → List (List Lexeme) → Prop := List.Forall₂ Writes

theorem writes_spaced {words : List (List Char)} {lists : List (List Lexeme)}
    (h : WritesAll words lists) : Writes (spaced words) lists.flatten := by
  induction h with
  | nil => exact fun _ _ => rfl
  | @cons word ls words lists hfirst hrest ih =>
    cases hrest with
    | nil =>
      rw [spaced, List.intercalate_singleton, List.flatten_singleton]
      exact hfirst
    | cons hnext hrest =>
      rw [spaced, List.intercalate_cons_cons, List.append_assoc, List.flatten_cons]
      exact hfirst.append ih.blank fun _ _ => delimits_cons (by decide)

theorem writes_op (op : InfixOp) : Writes op.text.toList [opLexeme op] := by
  cases op <;> exact writes_token (by decide) (by decide)

theorem writes_enclose (flag : Bool) {text : List Char} {ls : List Lexeme} (h : Writes text ls) :
    Writes (encloseText flag text) (enclose flag ls) := by
  cases flag with
  | false => exact h
  | true =>
    intro tail _
    have hclose : Delimits (')' :: tail) := delimits_cons (by decide)
    show pieces ('(' :: (text ++ [')'] ++ tail)) = _
    rw [pieces_symbol rfl (by decide), List.append_assoc, List.singleton_append, h _ hclose,
      pieces_symbol rfl (by decide)]
    simp [enclose]

theorem writes_parenthesise {texts : List (List Char)} {lists : List (List Lexeme)}
    (h : WritesAll texts lists) (tail : List Char) :
    pieces (parenthesiseText texts ++ tail) = (parenthesise lists).map Item.of ++ pieces tail := by
  have hinner : pieces ([',', ' '].intercalate texts ++ ')' :: tail) =
      ([Lexeme.comma].intercalate lists).map Item.of ++ pieces (')' :: tail) := by
    induction h with
    | nil => rfl
    | @cons text ls texts lists hfirst hrest ih =>
      cases hrest with
      | nil =>
        rw [List.intercalate_singleton, List.intercalate_singleton]
        exact hfirst _ (delimits_cons (by decide))
      | cons hnext hrest =>
        have hcomma : ∀ tail, Delimits ([',', ' '] ++ tail) ∧
            pieces ([',', ' '] ++ tail) = .of .comma :: pieces tail := by
          refine fun tail => ⟨delimits_cons (by decide), ?_⟩
          show pieces (',' :: ' ' :: tail) = _
          rw [pieces_symbol rfl (by decide), pieces_blank]
        rw [List.intercalate_cons_cons, List.intercalate_cons_cons, List.append_assoc,
          List.append_assoc, hfirst _ (hcomma _).1, (hcomma _).2, ih]
        simp
  show pieces ('(' :: ([',', ' '].intercalate texts ++ [')'] ++ tail)) = _
  rw [pieces_symbol rfl (by decide), List.append_assoc, List.singleton_append, hinner,
    pieces_symbol rfl (by decide)]
  simp [parenthesise]

/-- A name and a list in parentheses. -/
theorem writes_call (name : Name) {texts : List (List Char)} {lists : List (List Lexeme)}
    (h : WritesAll texts lists) :
    Writes (name.text.toList ++ parenthesiseText texts) (.ident name.text :: parenthesise lists) := by
  intro tail _
  have hopen : Delimits (parenthesiseText texts ++ tail) := delimits_cons (by decide)
  rw [List.append_assoc, name.writes _ hopen, writes_parenthesise h]
  rfl

mutual

/-- An expression is read as it is spelt. -/
theorem Expression.writes : ∀ e : Expression, Writes e.text e.lexemes
  | .integer value => writes_integer value.isLt
  | .floating whole fraction => writes_floating whole fraction
  | .variable name => name.writes
  | .infixOp op left right => by
    have hwords := writes_spaced (.cons (writes_enclose (leftEnclosed op left) left.writes)
      (.cons (writes_op op) (.cons (writes_enclose (rightEnclosed op right) right.writes) .nil)))
    simpa [Expression.text, Expression.lexemes] using hwords
  | .negate operand => by
    intro tail htail
    show pieces ('-' :: (encloseText operand.isInfix operand.text ++ tail)) = _
    rw [pieces_symbol rfl (by decide), writes_enclose _ operand.writes tail htail]
    rfl
  | .call name arguments => writes_call name arguments.writes

/-- Arguments are read as they are spelt. -/
theorem Arguments.writes : ∀ arguments : Arguments, WritesAll arguments.texts arguments.lexemes
  | .nil => .nil
  | .cons first rest => .cons first.writes rest.writes

end

/-! ## One line -/

/-- The text starts with neither a blank nor a comment. -/
def Plain (text : List Char) : Prop := ∃ c rest, text = c :: rest ∧ isBlank c = false ∧ c ≠ '#'

section

variable {text text' : List Char} {words : List (List Char)} {levels outer : List Nat}
  {column width w : Nat} {ls : List Lexeme}

theorem Plain.append (h : Plain text) (text' : List Char) : Plain (text ++ text') := by
  obtain ⟨c, rest, rfl, hc⟩ := h
  exact ⟨c, rest ++ text', rfl, hc⟩

theorem Plain.spaced (h : Plain text) : Plain (spaced (text :: words)) := by
  cases words with
  | nil =>
    rw [Grammar.spaced, List.intercalate_singleton]
    exact h
  | cons next words =>
    rw [Grammar.spaced, List.intercalate_cons_cons, List.append_assoc]
    exact h.append _

theorem Name.plain (name : Name) : Plain name.text.toList := by
  have h := name.wellFormed
  cases hchars : name.text.toList with
  | nil => simp [hchars, isName] at h
  | cons c rest =>
    rw [hchars, isName, Bool.and_eq_true] at h
    exact ⟨c, rest, rfl, isBlank_of_isNamePart (isNamePart_of_isNameStart h.1)⟩

theorem plain_of_digits {digits : List Char} (hne : digits ≠ [])
    (h : ∀ c ∈ digits, c.isDigit = true) : Plain digits := by
  obtain ⟨c, rest, rfl⟩ := List.exists_cons_of_ne_nil hne
  exact ⟨c, rest, rfl, isBlank_of_isNamePart (isNamePart_of_isDigit (h c List.mem_cons_self))⟩

theorem Expression.plain : ∀ e : Expression, Plain e.text
  | .integer _ => plain_of_digits Nat.toDigits_ne_nil fun _ hc =>
    Nat.isDigit_of_mem_toDigits (b := 10) (by decide) (by decide) hc
  | .floating whole _ => (plain_of_digits whole.nonempty whole.decimal).append _
  | .variable name => name.plain
  | .negate _ => ⟨'-', _, rfl, by decide⟩
  | .call name _ => name.plain.append _
  | .infixOp op left _ => by
    rw [Expression.text]
    cases leftEnclosed op left with
    | true => exact Plain.spaced ⟨'(', _, rfl, by decide⟩
    | false => exact left.plain.spaced

theorem Writes.pieces (h : Writes text ls) : pieces text = ls.map Item.of := by
  have hend : Abacus.pieces [] = [] := by
    rw [Abacus.pieces]
    rfl
  have hword := h [] delimits_nil
  rwa [List.append_nil, hend, List.append_nil] at hword

/-- What a line of text gives behind its indentation. -/
theorem readLine_indented (h : Plain text) (levels : List Nat) (column : Nat) :
    readLine levels (indented column text) =
      ((layout levels column Span.none).1 ++ (pieces text ++ [.of .newline]),
        (layout levels column Span.none).2) := by
  obtain ⟨c, rest, rfl, hblank, hcomment⟩ := h
  have hall : ∀ d ∈ List.replicate column ' ', isBlank d = true := by
    intro d hd
    rw [List.eq_of_mem_replicate hd]
    rfl
  have hskip : (indented column (c :: rest)).dropWhile isBlank = c :: rest := by
    rw [indented, List.dropWhile_append_of_pos hall, List.dropWhile_cons_of_neg (by simp [hblank])]
  have hblanks : (indented column (c :: rest)).takeWhile isBlank = List.replicate column ' ' := by
    rw [indented, List.takeWhile_append_of_pos hall, List.takeWhile_cons_of_neg (by simp [hblank]),
      List.append_nil]
  have htabs : tabsIn (List.replicate column ' ') = [] := by
    rw [tabsIn, List.filter_eq_nil_iff.2]
    · rfl
    · intro d hd
      rw [List.eq_of_mem_replicate hd]
      decide
  have hpieces : pieces (indented column (c :: rest)) = pieces (c :: rest) := by
    rw [pieces, pieces.eq_1 (c :: rest), hskip, List.dropWhile_cons_of_neg (by simp [hblank])]
  have htext : ¬ NoText (c :: rest) := by simp [NoText, hcomment]
  have hwidth : indentWidth (List.replicate column ' ') = column := List.count_replicate_self
  rw [readLine, hskip, if_neg htext, hblanks, htabs, hpieces, hwidth]
  rfl

/-! ## Layout -/

theorem layout_same : layout (column :: outer) column Span.none = ([], column :: outer) := by
  simp [layout]

theorem layout_deeper (h : w < column) :
    layout (w :: outer) column Span.none = ([.of .indent], column :: w :: outer) := if_pos h

/-- A level that is closed gives its end, and then it goes on as if it had not been opened. -/
theorem layout_closes (h : column ≤ w) (hw : w < width) :
    layout (width :: w :: outer) column Span.none =
      (.of .dedent :: (layout (w :: outer) column Span.none).1,
        (layout (w :: outer) column Span.none).2) := by
  have hdeeper : ¬ (width :: w :: outer).headD 0 < column := by
    simp only [List.headD_cons]
    omega
  have hsame : ¬ (w :: outer).headD 0 < column := by simpa using h
  have hclosed : column < width := Nat.lt_of_le_of_lt h hw
  have htake : (width :: w :: outer).takeWhile (column < ·) =
      width :: (w :: outer).takeWhile (column < ·) := List.takeWhile_cons_of_pos (by simpa using hclosed)
  have hdrop : (width :: w :: outer).dropWhile (column < ·) = (w :: outer).dropWhile (column < ·) :=
    List.dropWhile_cons_of_pos (by simpa using hclosed)
  simp only [layout, if_neg hdeeper, if_neg hsame, htake, hdrop]
  split <;> rfl

/-! ## Lines that start no further right -/

/-- The next line, if there is one, starts at the column or left of it. -/
inductive Low (column : Nat) : List (List Char) → Prop
  | finish : Low column [[]]
  | line {c : Nat} {text : List Char} (lines : List (List Char)) : c ≤ column → Plain text →
      Low column (indented c text :: lines)

theorem Low.mono {lines : List (List Char)} (h : Low column lines) (hcolumn : column ≤ width) :
    Low width lines := by
  cases h with
  | finish => exact .finish
  | line lines hc htext => exact .line lines (Nat.le_trans hc hcolumn) htext

/-- A line at the open level gives its lexemes. -/
theorem readLines_same {lines : List (List Char)} (h : Plain text) (hwrites : Writes text ls) :
    readLines (column :: outer) (indented column text :: lines) =
      ls.map Item.of ++ .of .newline :: readLines (column :: outer) lines := by
  rw [readLines, readLine_indented h, layout_same, hwrites.pieces]
  simp

/-- A line that is indented further opens a block. -/
theorem readLines_deeper {lines : List (List Char)} (h : Plain text) (hw : w < column) :
    readLines (w :: outer) (indented column text :: lines) =
      .of .indent :: readLines (column :: w :: outer) (indented column text :: lines) := by
  rw [readLines, readLines, readLine_indented h, readLine_indented h, layout_deeper hw, layout_same]
  rfl

/-- A line that is not indented as far closes the block. -/
theorem readLines_low {lines : List (List Char)} (h : Low w lines) (hw : w < width) :
    readLines (width :: w :: outer) lines = .of .dedent :: readLines (w :: outer) lines := by
  cases h with
  | finish =>
    have hblank : ∀ levels, readLines levels [[]] = readLines levels [] := fun _ => rfl
    rw [hblank, hblank]
    rfl
  | line lines hc htext =>
    rw [readLines, readLines, readLine_indented htext, readLine_indented htext, layout_closes hc hw]
    rfl

end

/-! ## Statements and bodies -/

section

variable {step column : Nat} {outer : List Nat} {lines : List (List Char)}

/-- What a statement is printed on is read as it is spelt, in front of lines that start no further
right. -/
def StatementRead (step : Nat) (s : Statement) : Prop :=
  ∀ column outer lines, Low column lines → readLines (column :: outer) (s.lines step column ++ lines) =
    s.lexemes.map Item.of ++ readLines (column :: outer) lines

/-- What a body is printed on is read as it is spelt, in front of lines that start no further right. -/
def BodyRead (step : Nat) (b : Body) : Prop :=
  ∀ column outer lines, Low column lines → readLines (column :: outer) (b.lines step column ++ lines) =
    b.lexemes.map Item.of ++ readLines (column :: outer) lines

theorem Statement.lines_start (step : Nat) (s : Statement) (column : Nat) :
    ∃ text more, s.lines step column = indented column text :: more ∧ Plain text := by
  cases s with
  | letVar => exact ⟨_, [], rfl, Plain.spaced ⟨'l', _, rfl, by decide⟩⟩
  | setVar name => exact ⟨_, [], rfl, name.plain.spaced⟩
  | giveBack => exact ⟨_, [], rfl, Plain.spaced ⟨'r', _, rfl, by decide⟩⟩
  | expression value => exact ⟨_, [], rfl, value.plain⟩
  | ifThen => exact ⟨_, _, rfl, Plain.spaced ⟨'i', _, rfl, by decide⟩⟩
  | ifElse => exact ⟨_, _, rfl, Plain.spaced ⟨'i', _, rfl, by decide⟩⟩
  | forLoop => exact ⟨_, _, rfl, Plain.spaced ⟨'f', _, rfl, by decide⟩⟩

theorem Body.lines_start (step : Nat) (b : Body) (column : Nat) :
    ∃ text more, b.lines step column = indented column text :: more ∧ Plain text := by
  cases b with
  | last s => exact s.lines_start step column
  | cons first rest =>
    obtain ⟨text, more, hlines, htext⟩ := first.lines_start step column
    exact ⟨text, _, by rw [Body.lines, hlines, List.cons_append], htext⟩

/-- A body is a block in front of lines that start no further right than the line before it. -/
theorem BodyRead.block {b : Body} (h : BodyRead step b) (hstep : 0 < step) (hlow : Low column lines) :
    readLines (column :: outer) (b.lines step (column + step) ++ lines) =
      .of .indent :: (b.lexemes.map Item.of ++ .of .dedent :: readLines (column :: outer) lines) := by
  have hdeeper : column < column + step := Nat.lt_add_of_pos_right hstep
  have hread := h (column + step) (column :: outer) lines (hlow.mono (Nat.le_add_right _ _))
  rw [readLines_low hlow hdeeper] at hread
  obtain ⟨text, more, hlines, htext⟩ := b.lines_start step (column + step)
  rw [hlines, List.cons_append] at hread ⊢
  rw [readLines_deeper htext hdeeper, hread]

/-- The first line of a statement with a body. -/
theorem BodyRead.after {b : Body} (h : BodyRead step b) (outer : List Nat) (hstep : 0 < step)
    (hlow : Low column lines) {text : List Char} {ls : List Lexeme} (htext : Plain text) (hwrites : Writes text ls) :
    readLines (column :: outer) (indented column text :: (b.lines step (column + step) ++ lines)) =
      (ls ++ blockLexemes b.lexemes).map Item.of ++ readLines (column :: outer) lines := by
  rw [readLines_same htext hwrites, h.block hstep hlow]
  simp [blockLexemes]

theorem statementRead_of_line {s : Statement} {text : List Char} {ls : List Lexeme}
    (hlines : ∀ column, s.lines step column = [indented column text])
    (hlexemes : s.lexemes = ls ++ [.newline]) (htext : Plain text) (hwrites : Writes text ls) :
    StatementRead step s := by
  intro column outer lines _
  rw [hlines, List.singleton_append, readLines_same htext hwrites, hlexemes]
  simp

/-! ### First lines -/

theorem writes_keyword (text : String) {l : Lexeme} (h : isName text.toList = true)
    (hword : Lexeme.keyword? text = some l) : Writes text.toList [l] := by
  have hwrites := writes_word h
  rwa [hword] at hwrites

theorem writes_let (name : Name) (value : Expression) :
    Writes (spaced ["let".toList, name.text.toList, ['='], value.text])
      (.letWord :: .ident name.text :: .equals :: value.lexemes) := by
  have hequals : Writes ['='] [.equals] := writes_token (by decide) rfl
  simpa using writes_spaced (.cons (writes_keyword "let" (by decide) rfl)
    (.cons name.writes (.cons hequals (.cons value.writes .nil))))

theorem writes_set (name : Name) (value : Expression) :
    Writes (spaced [name.text.toList, ['='], value.text])
      (.ident name.text :: .equals :: value.lexemes) := by
  have hequals : Writes ['='] [.equals] := writes_token (by decide) rfl
  simpa using writes_spaced (.cons name.writes (.cons hequals (.cons value.writes .nil)))

theorem writes_return (value : Expression) :
    Writes (spaced ["return".toList, value.text]) (.returnWord :: value.lexemes) := by
  simpa using writes_spaced
    (.cons (writes_keyword "return" (by decide) rfl) (.cons value.writes .nil))

theorem writes_if (condition : Expression) :
    Writes (spaced ["if".toList, condition.text]) (.ifWord :: condition.lexemes) := by
  simpa using writes_spaced
    (.cons (writes_keyword "if" (by decide) rfl) (.cons condition.writes .nil))

theorem writes_for (index : Name) (bound : Expression) :
    Writes (spaced ["for".toList, index.text.toList, ['<'], bound.text])
      (.forWord :: .ident index.text :: .less :: bound.lexemes) := by
  have hless : Writes ['<'] [.less] := writes_token (by decide) rfl
  simpa using writes_spaced (.cons (writes_keyword "for" (by decide) rfl)
    (.cons index.writes (.cons hless (.cons bound.writes .nil))))

theorem plain_if (condition : Expression) : Plain (spaced ["if".toList, condition.text]) :=
  Plain.spaced ⟨'i', _, rfl, by decide⟩

mutual

/-- Statements are read as they are spelt. -/
theorem statement_lines (hstep : 0 < step) : ∀ s : Statement, StatementRead step s
  | .letVar name value =>
    statementRead_of_line (fun _ => rfl) rfl (Plain.spaced ⟨'l', _, rfl, by decide⟩)
      (writes_let name value)
  | .setVar name value =>
    statementRead_of_line (fun _ => rfl) rfl name.plain.spaced (writes_set name value)
  | .giveBack value =>
    statementRead_of_line (fun _ => rfl) rfl (Plain.spaced ⟨'r', _, rfl, by decide⟩)
      (writes_return value)
  | .expression value => statementRead_of_line (fun _ => rfl) rfl value.plain value.writes
  | .ifThen condition thenBody => by
    intro column outer lines hlow
    exact (body_lines hstep thenBody).after outer hstep hlow (plain_if condition) (writes_if condition)
  | .ifElse condition thenBody elseBody => by
    intro column outer lines hlow
    have helse : Plain "else".toList := ⟨'e', _, rfl, by decide⟩
    rw [Statement.lines, List.cons_append, List.append_assoc, List.cons_append,
      (body_lines hstep thenBody).after outer hstep (.line _ (Nat.le_refl column) helse) (plain_if condition)
        (writes_if condition),
      (body_lines hstep elseBody).after outer hstep hlow helse (writes_keyword "else" (by decide) rfl),
      Statement.lexemes]
    simp
  | .forLoop index bound loopBody => by
    intro column outer lines hlow
    exact (body_lines hstep loopBody).after outer hstep hlow (Plain.spaced ⟨'f', _, rfl, by decide⟩)
      (writes_for index bound)

/-- Bodies are read as they are spelt. -/
theorem body_lines (hstep : 0 < step) : ∀ b : Body, BodyRead step b
  | .last s => fun column outer lines hlow => statement_lines hstep s column outer lines hlow
  | .cons first rest => by
    intro column outer lines hlow
    obtain ⟨text, more, hlines, htext⟩ := rest.lines_start step column
    have hnext : Low column (rest.lines step column ++ lines) := by
      rw [hlines, List.cons_append]
      exact .line _ (Nat.le_refl column) htext
    rw [Body.lines, List.append_assoc, statement_lines hstep first column outer _ hnext,
      body_lines hstep rest column outer lines hlow, Body.lexemes, List.map_append, List.append_assoc]

end

end

/-! ## Programs -/

section

variable {step : Nat}

theorem TopLevel.lines_start (step : Nat) (t : TopLevel) :
    ∃ text more, t.lines step = indented 0 text :: more ∧ Plain text := by
  cases t with
  | function => exact ⟨_, _, rfl, Plain.spaced ⟨'f', _, rfl, by decide⟩⟩
  | statement s => exact s.lines_start step 0

theorem topLevel_lines (hstep : 0 < step) (t : TopLevel) {lines : List (List Char)}
    (hlow : Low 0 lines) :
    readLines [0] (t.lines step ++ lines) = t.lexemes.map Item.of ++ readLines [0] lines := by
  cases t with
  | statement s => exact statement_lines hstep s 0 [] lines hlow
  | function name parameters b =>
    have hparameters : WritesAll (parameters.map fun p => p.text.toList)
        (parameters.map fun p => [.ident p.text]) := by
      induction parameters with
      | nil => exact .nil
      | cons p parameters ih => exact .cons p.writes ih
    have hline := writes_spaced (.cons (writes_keyword "fn" (by decide) rfl)
      (.cons (writes_call name hparameters) .nil))
    have hplain : Plain (spaced ["fn".toList,
        name.text.toList ++ parenthesiseText (parameters.map fun p => p.text.toList)]) :=
      Plain.spaced ⟨'f', _, rfl, by decide⟩
    have hread := (body_lines hstep b).after [] hstep hlow hplain hline
    rw [Nat.zero_add] at hread
    rw [TopLevel.lines, List.cons_append, hread]
    simp [TopLevel.lexemes]

/-- The lines of a program are read as it is spelt. -/
theorem readLines_program (hstep : 0 < step) (p : Program) :
    readLines [0] (p.flatMap (TopLevel.lines step) ++ [[]]) =
      (programLexemes p ++ [Lexeme.eof]).map Item.of := by
  induction p with
  | nil => rfl
  | cons t p ih =>
    have hlow : Low 0 (p.flatMap (TopLevel.lines step) ++ [[]]) := by
      cases p with
      | nil => exact .finish
      | cons next p =>
        obtain ⟨text, more, hlines, htext⟩ := next.lines_start step
        rw [List.flatMap_cons, hlines, List.cons_append, List.cons_append]
        exact .line _ (Nat.le_refl 0) htext
    rw [List.flatMap_cons, List.append_assoc, topLevel_lines hstep t hlow, ih]
    simp [programLexemes]

end

/-! ## The lines of a printed text -/

/-- The text is on one line. -/
def OneLine (text : List Char) : Prop := '\n' ∉ text

instance (text : List Char) : Decidable (OneLine text) := inferInstanceAs (Decidable (_ ∉ _))

section

variable {text : List Char} {words : List (List Char)} {step column : Nat}

theorem oneLine_of_nameParts (h : ∀ c ∈ text, isNamePart c = true) : OneLine text := by
  intro hmem
  cases h _ hmem

theorem Name.oneLine (name : Name) : OneLine name.text.toList := by
  refine oneLine_of_nameParts fun c hc => ?_
  have h := name.wellFormed
  cases hchars : name.text.toList with
  | nil => simp [hchars] at hc
  | cons d rest =>
    rw [hchars, isName, Bool.and_eq_true, List.all_eq_true] at h
    rw [hchars] at hc
    obtain rfl | hc := List.mem_cons.1 hc
    · exact isNamePart_of_isNameStart h.1
    · exact h.2 c hc

theorem oneLine_of_digits (h : ∀ c ∈ text, c.isDigit = true) : OneLine text :=
  oneLine_of_nameParts fun c hc => isNamePart_of_isDigit (h c hc)

theorem oneLine_encloseText {flag : Bool} (h : OneLine text) : OneLine (encloseText flag text) := by
  unfold encloseText
  split
  · simpa [OneLine] using h
  · exact h

theorem oneLine_intercalate (sep : List Char) (hsep : OneLine sep)
    (h : ∀ word ∈ words, OneLine word) : OneLine (sep.intercalate words) := by
  intro hmem
  obtain hmem | ⟨word, hword, hmem⟩ := mem_intercalate hmem
  · exact hsep hmem
  · exact h word hword hmem

theorem oneLine_parenthesiseText (h : ∀ word ∈ words, OneLine word) :
    OneLine (parenthesiseText words) := by
  have hinner := oneLine_intercalate [',', ' '] (by decide) h
  simpa [OneLine, parenthesiseText] using hinner

theorem oneLine_spaced (h : ∀ word ∈ words, OneLine word) : OneLine (spaced words) :=
  oneLine_intercalate [' '] (by decide) h

theorem oneLine_indented (h : OneLine text) : OneLine (indented column text) := by
  intro hmem
  obtain hmem | hmem := List.mem_append.1 hmem
  · cases List.eq_of_mem_replicate hmem
  · exact h hmem

mutual

theorem Expression.oneLine : ∀ e : Expression, OneLine e.text
  | .integer _ => oneLine_of_digits fun _ hc =>
    Nat.isDigit_of_mem_toDigits (b := 10) (by decide) (by decide) hc
  | .floating whole fraction => by
    have hwhole := oneLine_of_digits whole.decimal
    have hfraction := oneLine_of_digits fraction.decimal
    simpa [OneLine, Expression.text] using ⟨hwhole, hfraction⟩
  | .variable name => name.oneLine
  | .infixOp op left right => by
    have hop : OneLine op.text.toList := by cases op <;> decide
    refine oneLine_spaced ?_
    simpa using ⟨oneLine_encloseText left.oneLine, hop, oneLine_encloseText right.oneLine⟩
  | .negate operand => by
    simpa [OneLine, Expression.text] using oneLine_encloseText operand.oneLine
  | .call name arguments => by
    have harguments := oneLine_parenthesiseText arguments.oneLine
    simpa [OneLine, Expression.text] using ⟨name.oneLine, harguments⟩

theorem Arguments.oneLine : ∀ arguments : Arguments, ∀ word ∈ arguments.texts, OneLine word
  | .nil => by simp [Arguments.texts]
  | .cons first rest => List.forall_mem_cons.2 ⟨first.oneLine, rest.oneLine⟩

end

theorem oneLine_words (h : ∀ word ∈ words, OneLine word) : OneLine (indented column (spaced words)) :=
  oneLine_indented (oneLine_spaced h)

theorem oneLine_if (condition : Expression) :
    OneLine (indented column (spaced ["if".toList, condition.text])) :=
  oneLine_words (by simpa using ⟨by decide, condition.oneLine⟩)

mutual

theorem Statement.oneLine (step : Nat) : ∀ (s : Statement) (column : Nat),
    ∀ line ∈ s.lines step column, OneLine line
  | .letVar name value, column => List.forall_mem_singleton.2 <|
    oneLine_words (by simpa using ⟨by decide, name.oneLine, by decide, value.oneLine⟩)
  | .setVar name value, column => List.forall_mem_singleton.2 <|
    oneLine_words (by simpa using ⟨name.oneLine, by decide, value.oneLine⟩)
  | .giveBack value, column => List.forall_mem_singleton.2 <|
    oneLine_words (by simpa using ⟨by decide, value.oneLine⟩)
  | .expression value, column => List.forall_mem_singleton.2 (oneLine_indented value.oneLine)
  | .ifThen condition thenBody, column =>
    List.forall_mem_cons.2 ⟨oneLine_if condition, thenBody.oneLine step (column + step)⟩
  | .ifElse condition thenBody elseBody, column =>
    List.forall_mem_cons.2 ⟨oneLine_if condition, List.forall_mem_append.2
      ⟨thenBody.oneLine step (column + step), List.forall_mem_cons.2
        ⟨oneLine_indented (by decide), elseBody.oneLine step (column + step)⟩⟩⟩
  | .forLoop index bound body, column =>
    List.forall_mem_cons.2 ⟨oneLine_words
      (by simpa using ⟨by decide, index.oneLine, by decide, bound.oneLine⟩),
      body.oneLine step (column + step)⟩

theorem Body.oneLine (step : Nat) : ∀ (b : Body) (column : Nat),
    ∀ line ∈ b.lines step column, OneLine line
  | .last s, column => s.oneLine step column
  | .cons first rest, column =>
    List.forall_mem_append.2 ⟨first.oneLine step column, rest.oneLine step column⟩

end

theorem TopLevel.oneLine (step : Nat) (t : TopLevel) : ∀ line ∈ t.lines step, OneLine line := by
  cases t with
  | statement s => exact s.oneLine step 0
  | function name parameters b =>
    have hparameters : ∀ word ∈ parameters.map fun p => p.text.toList, OneLine word := by
      intro word hword
      obtain ⟨p, -, rfl⟩ := List.mem_map.1 hword
      exact p.oneLine
    have hcall : OneLine (name.text.toList ++ parenthesiseText (parameters.map fun p => p.text.toList)) := by
      simpa [OneLine] using ⟨name.oneLine, oneLine_parenthesiseText hparameters⟩
    exact List.forall_mem_cons.2 ⟨oneLine_words (by simpa using ⟨by decide, hcall⟩), b.oneLine step step⟩

/-- The lines of a text in which every line has an end. -/
theorem linesOf_ended {lines : List (List Char)} (h : ∀ line ∈ lines, OneLine line) :
    linesOf (String.ofList (lines.flatMap (· ++ ['\n']))) = lines ++ [[]] := by
  unfold linesOf
  rw [String.toList_ofList]
  induction lines with
  | nil => rfl
  | cons line lines ih =>
    rw [List.forall_mem_cons] at h
    rw [List.flatMap_cons, List.append_assoc, List.singleton_append,
      List.splitOn_append_cons_self_of_not_mem h.1, ih h.2, List.cons_append]

/-- A printed program is read as it is spelt. -/
theorem readLines_print (hstep : 0 < step) (p : Program) :
    readLines [0] (linesOf (print step p)) = (programLexemes p ++ [Lexeme.eof]).map Item.of := by
  have hlines : ∀ line ∈ p.flatMap (TopLevel.lines step), OneLine line := by
    intro line hline
    obtain ⟨t, -, ht⟩ := List.mem_flatMap.1 hline
    exact t.oneLine step line ht
  rw [print, linesOf_ended hlines, readLines_program hstep]

end

end Abacus.Grammar
