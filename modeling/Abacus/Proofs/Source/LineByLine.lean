import Abacus.Proofs.Source.Lines
import Abacus.Proofs.Tree.Lexemes

/-!
# A text is read line by line

Places apart, what the reader gives for a line depends on the line and on the levels of indentation
that are open before it. So a text can be read without a cursor: the lines one after the other, and
what is open after them is closed.

* `pieces` — the items of a line, layout apart;
* `readLine`, `readLines` — the items of a line and of lines, at no place;
* `Lined`, `scanItems_lined` — the reader gives the items of the lines, each at its line number;
* `scanItems_lines` — up to places, these are what the lines of the text give.
-/

namespace Abacus

/-! ## Reading without a cursor -/

/-- What an item says, at no place. -/
def Item.unplaced : Item → Item
  | token t => token ⟨t.lexeme, Span.none⟩
  | complaint d => complaint d.unplaced

/-- A lexeme at no place. -/
def Item.of (lexeme : Lexeme) : Item := .token ⟨lexeme, Span.none⟩

/-- What is said about a piece of text at no place. -/
def Item.ofResult : Except String Lexeme → Item
  | .ok lexeme => of lexeme
  | .error message => .complaint (.error message Span.none)

/-- Nothing comes that is read: a comment at most. -/
def NoText (chars : List Char) : Prop := chars = [] ∨ chars.head? = some '#'

instance (chars : List Char) : Decidable (NoText chars) := inferInstanceAs (Decidable (_ ∨ _))

/-- The items of a line, layout apart. -/
def pieces (line : List Char) : List Item :=
  let text := line.dropWhile isBlank
  if _h : NoText text then []
  else Item.ofResult (lexemeAt text).1 :: pieces (text.drop (lexemeAt text).2)
termination_by line.length
decreasing_by
  have hpos := lexemeAt_pos (line.dropWhile isBlank)
  have hne : line.dropWhile isBlank ≠ [] := fun hnil => _h (.inl hnil)
  have hlength := List.length_pos_iff.2 hne
  have hle := (List.dropWhile_suffix isBlank (l := line)).length_le
  rw [List.length_drop]
  omega

/-- The complaint about a tab in an indentation, for every tab in it. -/
def tabsIn (blanks : List Char) : List Item :=
  (blanks.filter (· = '\t')).map fun _ =>
    .complaint (.error "tabs are not allowed in indentation" Span.none)

/-- The items of a line, and the levels of indentation that are open after it. -/
def readLine (levels : List Nat) (line : List Char) : List Item × List Nat :=
  let blanks := line.takeWhile isBlank
  if NoText (line.dropWhile isBlank) then (tabsIn blanks, levels)
  else
    let (items, inner) := layout levels (indentWidth blanks) Span.none
    (tabsIn blanks ++ (items ++ (pieces line ++ [.of .newline])), inner)

/-- The items of lines and of the end of the text after them. -/
def readLines (levels : List Nat) : List (List Char) → List Item
  | [] => (levels.drop 1).map (fun _ => .of .dedent) ++ [.of .eof]
  | line :: lines => (readLine levels line).1 ++ readLines (readLine levels line).2 lines

/-- The lexeme of an item. -/
def Item.lexeme? (item : Item) : Option Lexeme := item.token?.map Token.lexeme

/-- The lines of a text, without their ends. -/
def linesOf (text : String) : List (List Char) := text.toList.splitOn '\n'

/-- Where an item stands. -/
def Item.span : Item → Span
  | token t => t.span
  | complaint d => d.span

/-- The items stand on the line, and this is what they say. -/
structure OnLine (number : Nat) (said items : List Item) : Prop where
  unplaced : items.map Item.unplaced = said
  line : ∀ item ∈ items, item.span.line = number

/-- What comes after the line `number`: the end of the text, or what the next line gives. -/
def Resumes (number : Nat) (levels : List Nat) (tail : List Char) (items : List Item) : Prop :=
  (tail = [] ∧ ∃ c : Cursor, items = closing levels c) ∨
    ∃ rest, tail = '\n' :: rest ∧ ∃ c : Cursor, c.line = number + 1 ∧ c.rest = rest ∧
      items = lineStart levels c

/-! ## One item -/

section

variable {levels : List Nat} {c : Cursor} {line tail : List Char} {number : Nat}
  {said said' items items' : List Item}

theorem OnLine.append (h : OnLine number said items) (h' : OnLine number said' items') :
    OnLine number (said ++ said') (items ++ items') where
  unplaced := by rw [List.map_append, h.unplaced, h'.unplaced]
  line item hmem := (List.mem_append.1 hmem).elim (h.line item) (h'.line item)

theorem tabComplaints_onLine (c : Cursor) (n : Nat) :
    OnLine c.line (tabsIn (c.rest.take n)) (tabComplaints c n) := by
  induction n generalizing c with
  | zero => exact ⟨rfl, by simp [tabComplaints]⟩
  | succ n ih =>
    have hafter : OnLine c.line (tabsIn ((c.advance 1).rest.take n)) (tabComplaints (c.advance 1) n) :=
      ih (c.advance 1)
    unfold tabComplaints
    cases hc : c.rest with
    | nil => simpa [hc, tabsIn] using hafter
    | cons d rest =>
      rw [Cursor.rest_advance, hc, List.drop_succ_cons, List.drop_zero] at hafter
      by_cases hd : d = '\t'
      · subst hd
        have htab : OnLine c.line (tabsIn ['\t']) [.complaint
            (.error "tabs are not allowed in indentation" (c.spanTo (c.advance 1)))] :=
          ⟨rfl, by simp [Item.span, Diagnostic.error, Cursor.spanTo]⟩
        exact htab.append hafter
      · simpa [hd, tabsIn] using hafter

theorem tabsAt_onLine (hrest : c.rest = line ++ tail) (htail : EndOfLine tail) :
    OnLine c.line (tabsIn (line.takeWhile isBlank)) (tabsAt c) := by
  have hblanks : c.rest.takeWhile isBlank = line.takeWhile isBlank := by
    rw [hrest, takeWhile_append_tail (htail.head_false (by decide))]
  have htabs := tabComplaints_onLine c (c.rest.takeWhile isBlank).length
  rwa [← List.prefix_iff_eq_take.1 (List.takeWhile_prefix _), ← tabsAt, hblanks] at htabs

theorem layout_onLine (levels : List Nat) (width : Nat) (span : Span) :
    OnLine span.line (layout levels width Span.none).1 (layout levels width span).1 := by
  unfold layout
  split
  · exact ⟨rfl, by simp [Item.span]⟩
  · dsimp only
    split
    · refine ⟨by simp [Item.unplaced], ?_⟩
      simp only [List.mem_map]
      rintro _ ⟨_, -, rfl⟩
      rfl
    · refine ⟨by simp [Item.unplaced, Diagnostic.unplaced, Diagnostic.error, Diagnostic.withHelp], ?_⟩
      simp only [List.mem_append, List.mem_map, List.mem_singleton]
      rintro _ (⟨_, -, rfl⟩ | rfl) <;> rfl

theorem layout_snd (levels : List Nat) (width : Nat) (span span' : Span) :
    (layout levels width span).2 = (layout levels width span').2 := by
  unfold layout
  split
  · rfl
  · dsimp only
    split <;> rfl

theorem closing_unplaced (levels : List Nat) (c : Cursor) :
    (closing levels c).map Item.unplaced = readLines levels [] := by
  simp [closing, readLines, Item.unplaced, Item.of]

theorem onLine_scanToken (c : Cursor) :
    OnLine c.line [.ofResult (lexemeAt c.rest).1] [(scanToken c).1] := by
  unfold scanToken
  rcases lexemeAt c.rest with ⟨_ | _, n⟩ <;> exact ⟨rfl, by simp [Item.span, Diagnostic.error, Cursor.spanTo]⟩

/-! ## One line -/

/-- A line without text is skipped. -/
theorem rest_skipBlanks_of_noText (h : NoText (line.dropWhile isBlank)) (hline : '\n' ∉ line)
    (hrest : c.rest = line ++ tail) (htail : EndOfLine tail) : c.skipBlanks.rest = tail := by
  have hblanks : (c.skipWhile isBlank).rest = line.dropWhile isBlank ++ tail := by
    rw [Cursor.rest_skipWhile, hrest, dropWhile_append_tail (htail.head_false (by decide))]
  unfold Cursor.skipBlanks
  rcases h with hnil | hcomment
  · rw [hnil, List.nil_append] at hblanks
    rw [if_neg, hblanks]
    rw [hblanks]
    intro hhash
    cases htail _ hhash
  · obtain ⟨rest, hcons⟩ := List.head?_eq_some_iff.1 hcomment
    have hall : (line.dropWhile isBlank).dropWhile (· != '\n') = [] := by
      refine List.dropWhile_eq_nil_iff.2 fun d hd => ?_
      have hmem : d ∈ line := List.dropWhile_subset _ hd
      simpa using fun heq : d = '\n' => hline (heq ▸ hmem)
    rw [if_pos (by rw [hblanks, hcons]; rfl), Cursor.rest_skipWhile, hblanks,
      dropWhile_append_tail (htail.head_false (by decide)), hall, List.nil_append]

/-- Of a line with text the blanks are skipped. -/
theorem rest_skipBlanks_of_text (h : ¬ NoText (line.dropWhile isBlank))
    (hrest : c.rest = line ++ tail) (htail : EndOfLine tail) :
    c.skipBlanks.rest = line.dropWhile isBlank ++ tail := by
  have hblanks : (c.skipWhile isBlank).rest = line.dropWhile isBlank ++ tail := by
    rw [Cursor.rest_skipWhile, hrest, dropWhile_append_tail (htail.head_false (by decide))]
  obtain ⟨d, more, hcons⟩ := List.exists_cons_of_ne_nil fun hnil => h (.inl hnil)
  have hcomment : (line.dropWhile isBlank).head? ≠ some '#' := fun heq => h (.inr heq)
  unfold Cursor.skipBlanks
  rw [if_neg, hblanks]
  rwa [hblanks, hcons, List.cons_append, List.head?_cons, ← List.head?_cons (a := d) (l := more),
    ← hcons]

/-- At the end of a line that has text there is a `newline`. -/
theorem lineRest_end (htail : EndOfLine tail) (h : c.skipBlanks.rest = tail) :
    ∃ front ending, lineRest levels c = front ++ ending ∧ OnLine c.line [.of .newline] front ∧
      Resumes c.line levels tail ending := by
  cases tail with
  | nil =>
    rw [lineRest_of_nil h]
    exact ⟨[_], _, rfl, ⟨rfl, by simp [Item.span, Cursor.spanTo, c.line_skipBlanks]⟩,
      .inl ⟨rfl, _, rfl⟩⟩
  | cons d rest =>
    obtain rfl := htail d rfl
    rw [lineRest_of_newline h]
    exact ⟨[_], _, rfl, ⟨rfl, by simp [Item.span, Cursor.spanTo, c.line_skipBlanks]⟩,
      .inr ⟨rest, rfl, c.skipBlanks.nextLine, congrArg (· + 1) c.line_skipBlanks, by simp [h], rfl⟩⟩

/-- Within a line the reader gives the items of the line and a `newline`. -/
theorem lineRest_line (levels : List Nat) (hline : '\n' ∉ line) (htail : EndOfLine tail)
    (hrest : c.rest = line ++ tail) :
    ∃ front ending, lineRest levels c = front ++ ending ∧
      OnLine c.line (pieces line ++ [.of .newline]) front ∧ Resumes c.line levels tail ending := by
  fun_induction pieces line generalizing c
  case case1 line text hno =>
    exact lineRest_end htail (rest_skipBlanks_of_noText hno hline hrest htail)
  case case2 line text htext ih =>
    have hskip : c.skipBlanks.rest = text ++ tail := rest_skipBlanks_of_text htext hrest htail
    obtain ⟨d, more, hcons⟩ := List.exists_cons_of_ne_nil fun hnil => htext (.inl hnil)
    have hsub : ∀ d ∈ text, d ∈ line := fun _ hd => List.dropWhile_subset _ hd
    have hd : d ≠ '\n' := fun heq => hline (heq ▸ hsub d (by simp [hcons]))
    have hne : text ≠ [] := fun hnil => htext (.inl hnil)
    have hlexeme := lexemeAt_append_tail hne htail.delimits
    have hnext : (scanToken c.skipBlanks).2.rest = text.drop (lexemeAt text).2 ++ tail := by
      rw [scanToken_snd, Cursor.rest_advance, hskip, hlexeme,
        List.drop_append_of_le_length (lexemeAt_le hne)]
    have hplace : (scanToken c.skipBlanks).2.line = c.line := by
      rw [scanToken_snd]
      exact c.line_skipBlanks
    obtain ⟨front, ending, hread, hfront, hends⟩ :=
      ih (fun hmem => hline (hsub _ (List.drop_subset _ _ hmem))) hnext
    rw [hplace] at hfront hends
    have hhead : c.skipBlanks.rest = d :: (more ++ tail) := by rw [hskip, hcons, List.cons_append]
    have hitem : OnLine c.line [.ofResult (lexemeAt text).1] [(scanToken c.skipBlanks).1] := by
      rw [← hlexeme, ← hskip, ← c.line_skipBlanks]
      exact onLine_scanToken c.skipBlanks
    refine ⟨_ :: front, ending, ?_, hitem.append hfront, hends⟩
    rw [lineRest_of_text hhead hd, hread, List.cons_append]

/-- From the start of a line the reader gives what the line gives. -/
theorem lineStart_line (levels : List Nat) (hline : '\n' ∉ line) (htail : EndOfLine tail)
    (hrest : c.rest = line ++ tail) :
    ∃ front ending, lineStart levels c = front ++ ending ∧
      OnLine c.line (readLine levels line).1 front ∧
      Resumes c.line (readLine levels line).2 tail ending := by
  have htabs := tabsAt_onLine hrest htail
  unfold readLine
  by_cases hno : NoText (line.dropWhile isBlank)
  · have hskip := rest_skipBlanks_of_noText hno hline hrest htail
    rw [if_pos hno]
    cases tail with
    | nil => exact ⟨_, _, lineStart_of_nil hskip, htabs, .inl ⟨rfl, c.skipBlanks, rfl⟩⟩
    | cons d rest =>
      obtain rfl := htail d rfl
      exact ⟨_, _, lineStart_of_newline hskip, htabs,
        .inr ⟨rest, rfl, c.skipBlanks.nextLine, congrArg (· + 1) c.line_skipBlanks, by simp [hskip], rfl⟩⟩
  · have hskip := rest_skipBlanks_of_text hno hrest htail
    obtain ⟨d, more, hcons⟩ := List.exists_cons_of_ne_nil fun hnil => hno (.inl hnil)
    have hmem : d ∈ line := List.dropWhile_subset isBlank (by rw [hcons]; exact List.mem_cons_self)
    have hd : d ≠ '\n' := fun heq => hline (heq ▸ hmem)
    have hlayout := layout_onLine levels (indentWidth (line.takeWhile isBlank))
      (c.spanTo c.skipBlanks)
    have hinner := layout_snd levels (indentWidth (line.takeWhile isBlank)) (c.spanTo c.skipBlanks)
      Span.none
    have hblanks : c.rest.takeWhile isBlank = line.takeWhile isBlank := by
      rw [hrest, takeWhile_append_tail (htail.head_false (by decide))]
    -- Behind the indentation it makes no difference that the blanks are still there.
    obtain ⟨front, ending, hread, hfront, hends⟩ := lineRest_line
      (layout levels (indentWidth (line.takeWhile isBlank)) Span.none).2 hline htail hrest
    rw [lineRest_skipBlanks] at hread
    rw [if_neg hno, lineStart_of_text (by rw [hskip, hcons]; rfl) hd, hblanks, hinner, hread]
    refine ⟨_, ending, ?_, htabs.append (hlayout.append hfront), hends⟩
    simp only [List.append_assoc]

/-- Items of the lines of a text from the line `number` on, with the open levels before them, and of
the end of the text. -/
inductive Lined : Nat → List Nat → List (List Char) → List Item → Prop
  | nil {number : Nat} (levels : List Nat) (c : Cursor) :
      Lined number levels [] (closing levels c)
  | cons {number : Nat} {levels : List Nat} {line : List Char} {lines : List (List Char)}
      {front items : List Item} : OnLine number (readLine levels line).1 front →
      Lined (number + 1) (readLine levels line).2 lines items →
      Lined number levels (line :: lines) (front ++ items)

/-! ## Texts -/

theorem not_mem_of_mem_splitOn {d : Char} {chars line : List Char} (h : line ∈ chars.splitOn d) :
    d ∉ line := by
  induction chars generalizing line with
  | nil => simp_all
  | cons x chars ih =>
    rw [List.splitOn_cons_eq_if_modifyHead] at h
    split at h
    · next hx =>
      obtain rfl | hmem := List.mem_cons.1 h
      · exact List.not_mem_nil
      · exact ih hmem
    · next hx =>
      obtain ⟨first, rest, hcons⟩ := List.exists_cons_of_ne_nil (List.splitOn_ne_nil d chars)
      rw [hcons, List.modifyHead_cons] at h
      obtain rfl | hmem := List.mem_cons.1 h
      · have hfirst : d ∉ first := ih (by simp [hcons])
        simpa [hfirst] using fun heq : d = x => hx (by simp [heq])
      · exact ih (by simp [hcons, hmem])

/-- From the start of a line the reader gives what this line and those after it give. -/
theorem lineStart_lined {lines : List (List Char)} (hlines : ∀ line ∈ lines, '\n' ∉ line)
    (hne : lines ≠ []) (hrest : c.rest = ['\n'].intercalate lines) :
    Lined c.line levels lines (lineStart levels c) := by
  induction lines generalizing levels c with
  | nil => exact absurd rfl hne
  | cons line lines ih =>
    have hline := hlines line List.mem_cons_self
    have hothers := fun line hmem => hlines line (List.mem_cons_of_mem _ hmem)
    cases lines with
    | nil =>
      rw [List.intercalate_singleton, ← List.append_nil line] at hrest
      obtain ⟨front, ending, hread, hfront, hends⟩ :=
        lineStart_line levels hline (by simp [EndOfLine]) hrest
      obtain ⟨-, c', rfl⟩ | ⟨rest, hcons, -⟩ := hends
      · rw [hread]
        exact .cons hfront (.nil _ _)
      · cases hcons
    | cons next lines =>
      rw [List.intercalate_cons_cons, List.append_assoc, List.singleton_append] at hrest
      obtain ⟨front, ending, hread, hfront, hends⟩ :=
        lineStart_line levels hline (by simp [EndOfLine]) hrest
      obtain ⟨hnil, -⟩ | ⟨rest, hcons, c', hc', hrest', rfl⟩ := hends
      · cases hnil
      · cases hcons
        rw [hread]
        exact .cons hfront (hc' ▸ ih hothers (by simp) hrest')

/-- The items of a text are those of its lines. -/
theorem scanItems_lined (text : String) : Lined 1 [0] (linesOf text) (scanItems text) := by
  refine lineStart_lined (c := Cursor.ofText text) (fun line hline => ?_) (List.splitOn_ne_nil _ _) ?_
  · exact not_mem_of_mem_splitOn hline
  · exact (List.intercalate_splitOn _).symm

theorem Lined.unplaced {lines : List (List Char)} (h : Lined number levels lines items) :
    items.map Item.unplaced = readLines levels lines := by
  induction h with
  | nil levels c => exact closing_unplaced levels c
  | cons hfront _ ih => rw [List.map_append, hfront.unplaced, ih, readLines]

/-- Up to places, the reader gives what the lines of the text give. -/
theorem scanItems_lines (text : String) :
    (scanItems text).map Item.unplaced = readLines [0] (linesOf text) :=
  (scanItems_lined text).unplaced

/-- The lexemes that a parser gets are those of the lines. -/
theorem lexemes_scan (text : String) :
    (scan text).tokens.map Token.lexeme = (readLines [0] (linesOf text)).filterMap Item.lexeme? := by
  rw [← scanItems_lines, scan, List.map_filterMap, List.filterMap_map]
  exact List.filterMap_congr fun item _ => by cases item <;> rfl

/-- What the reader says is what is said of the lines. -/
theorem complaints_scan (text : String) : (scan text).complaints.map Diagnostic.unplaced =
    (readLines [0] (linesOf text)).filterMap Item.complaint? := by
  rw [← scanItems_lines, scan, List.map_filterMap, List.filterMap_map]
  exact List.filterMap_congr fun item _ => by cases item <;> rfl

end

end Abacus
