import Mathlib.Data.List.DropRight
import Mathlib.Data.List.TakeWhile
import Abacus.Proofs.Source.Bracketing
import Abacus.Proofs.Source.Longest

/-!
# Every byte has its place

The reader goes through a text from its start to its end. What it finds stands where its span says,
with the line and the column of its first byte, and says what is written there. What it passes over
without an item is blank, the end of a line without text, or a comment.

* `spanOf` — the span of a piece of text, from what stands before it;
* `Cursor.Behind` — a cursor knows where it is, and so it does after every step;
* `Item.Says`, `LeftOut` — what an item says of the characters it stands at, and what needs no item;
* `Covers` — items account for a text from some place on; `lineStart_covers` for those of the reader;
* `Accounted`, `scan_accounted` — what follows for the tokens and the complaints of a text.
-/

namespace Abacus

open Cursor (byteLength)
open Grammar (isBlank_of_isNamePart isNamePart_of_isDigit)

/-! ## Places -/

/-- What stands on the last line. -/
def lastLine (chars : List Char) : List Char := chars.rtakeWhile (· != '\n')

/-- The span of `word` behind `before`. Its line is one more than the line ends before it, its column
one more than the bytes before it on the line. -/
def spanOf (before word : List Char) : Span where
  start := byteLength before
  stop := byteLength before + byteLength word
  line := before.count '\n' + 1
  column := byteLength (lastLine before) + 1

section

variable {before chars word rest blanks : List Char} {c c' : Cursor} {d : Char} {p : Char → Bool}

theorem byteLength_append (chars rest : List Char) :
    byteLength (chars ++ rest) = byteLength chars + byteLength rest := by
  induction chars with
  | nil => exact (Nat.zero_add _).symm
  | cons d chars ih =>
    change d.utf8Size + byteLength (chars ++ rest) = d.utf8Size + byteLength chars + byteLength rest
    rw [ih, Nat.add_assoc]

theorem byteLength_toList (text : String) : byteLength text.toList = text.utf8ByteSize := by
  have hlength : ∀ chars, byteLength chars = (String.ofList chars).utf8ByteSize := by
    intro chars
    induction chars with
    | nil => rfl
    | cons d chars ih =>
      rw [← List.singleton_append, String.ofList_append, String.utf8ByteSize_append, ← ih,
        ← String.singleton_eq_ofList, String.utf8ByteSize_singleton]
      rfl
  rw [hlength, String.ofList_toList]

theorem lastLine_append (h : '\n' ∉ chars) : lastLine (before ++ chars) = lastLine before ++ chars := by
  induction chars using List.reverseRecOn with
  | nil => simp
  | append_singleton chars d ih =>
    obtain ⟨hchars, hd⟩ : '\n' ∉ chars ∧ d ≠ '\n' := by
      simpa [eq_comm] using h
    rw [← List.append_assoc, lastLine, List.rtakeWhile_concat, if_pos (by simpa using hd), ← lastLine,
      ih hchars, List.append_assoc]

theorem lastLine_newline (before : List Char) : lastLine (before ++ ['\n']) = [] := by
  rw [lastLine, List.rtakeWhile_concat, if_neg (by simp)]

/-! ## The cursor -/

/-- The cursor is behind `before`. -/
structure Cursor.Behind (before : List Char) (c : Cursor) : Prop where
  offset : c.offset = byteLength before
  line : c.line = before.count '\n' + 1
  lineStart : c.lineStart + byteLength (lastLine before) = byteLength before

/-- Behind `before` the cursor passes over blanks and a comment. -/
structure Cursor.Passes (before blanks comment : List Char) (c : Cursor) : Prop where
  takeWhile : c.rest.takeWhile isBlank = blanks
  noText : NoText comment
  oneLine : '\n' ∉ comment
  split : c.rest = blanks ++ (comment ++ c.skipBlanks.rest)
  behind : c.skipBlanks.Behind (before ++ blanks ++ comment)

namespace Cursor.Behind

theorem ofText (text : String) : (Cursor.ofText text).Behind [] := ⟨rfl, rfl, rfl⟩

theorem spanTo (h : c.Behind before) (h' : c'.Behind (before ++ word)) : c.spanTo c' = spanOf before word := by
  have hcolumn := h.lineStart
  unfold Cursor.spanTo spanOf
  rw [h'.offset, byteLength_append, h.line, h.offset]
  congr 2
  omega

theorem advance {n : Nat} (h : c.Behind before) (hline : '\n' ∉ c.rest.take n) :
    (c.advance n).Behind (before ++ c.rest.take n) where
  offset := by rw [byteLength_append, ← h.offset]; rfl
  line := by rw [List.count_append, List.count_eq_zero.2 hline, Nat.add_zero, ← h.line]; rfl
  lineStart := by
    rw [lastLine_append hline, byteLength_append, byteLength_append, ← h.lineStart, ← Nat.add_assoc]
    rfl

theorem skipWhile (h : c.Behind before) (hp : p '\n' = false) :
    (c.skipWhile p).Behind (before ++ c.rest.takeWhile p) := by
  have htake : c.rest.take (c.rest.takeWhile p).length = c.rest.takeWhile p :=
    (List.prefix_iff_eq_take.1 (List.takeWhile_prefix p)).symm
  have hline : '\n' ∉ c.rest.takeWhile p := by
    intro hmem
    rw [List.mem_takeWhile_imp hmem] at hp
    cases hp
  rw [← htake] at hline ⊢
  exact h.advance hline

theorem nextLine (h : c.Behind before) : c.nextLine.Behind (before ++ ['\n']) where
  offset := by rw [byteLength_append, ← h.offset]; rfl
  line := by rw [List.count_append, Nat.add_right_comm, ← h.line]; rfl
  lineStart := by rw [lastLine_newline, byteLength_append, ← h.offset]; rfl

/-- What is skipped ends where blanks do, or where a line does. -/
theorem skipBlanks (h : c.Behind before) : ∃ blanks comment, c.Passes before blanks comment := by
  have hblanks := h.skipWhile (p := isBlank) (by decide)
  have hrest := c.rest_skipWhile isBlank
  by_cases hcomment : (c.skipWhile isBlank).rest.head? = some '#'
  · have hskip : c.skipBlanks = (c.skipWhile isBlank).skipWhile (· != '\n') := if_pos hcomment
    refine ⟨_, _, rfl, .inr ?_, ?_, ?_, hskip ▸ hblanks.skipWhile (p := (· != '\n')) (by decide)⟩
    · obtain ⟨more, hmore⟩ := List.head?_eq_some_iff.1 hcomment
      rw [hmore]
      rfl
    · exact fun hmem => absurd (List.mem_takeWhile_imp hmem) (by simp)
    · rw [hskip, rest_skipWhile (c.skipWhile isBlank), List.takeWhile_append_dropWhile, hrest,
        List.takeWhile_append_dropWhile]
  · have hskip : c.skipBlanks = c.skipWhile isBlank := if_neg hcomment
    refine ⟨_, [], rfl, .inl rfl, List.not_mem_nil, ?_, ?_⟩
    · rw [hskip, List.nil_append, hrest, List.takeWhile_append_dropWhile]
    · rwa [hskip, List.append_nil]

end Cursor.Behind

/-! ## Items -/

/-- The characters `word` are the indentation of a line. -/
structure IsIndentation (before word rest : List Char) : Prop where
  starts : lastLine before = []
  blank : ∀ c ∈ word, isBlank c = true
  ends : ∀ c ∈ rest.head?, isBlank c = false

/-- The complaint about the line whose indentation is `word`. -/
def levelComplaint (before word : List Char) : Item :=
  .complaint ((Diagnostic.error "inconsistent indentation" (spanOf before word)).withHelp
    "dedent to the same column as an enclosing block")

/-- What items say of the characters `word` that they stand at, between `before` and `rest`. -/
inductive Item.Says (before word rest : List Char) : Item → Prop
  | lexeme {l : Lexeme} : Taken word rest (.ok l) → Says before word rest (.token ⟨l, spanOf before word⟩)
  | newline : word = ['\n'] ∨ word = [] ∧ rest = [] →
      Says before word rest (.token ⟨.newline, spanOf before word⟩)
  | layout {l : Lexeme} : l = .indent ∨ l = .dedent → IsIndentation before word rest →
      Says before word rest (.token ⟨l, spanOf before word⟩)
  | closing {l : Lexeme} : l = .dedent ∨ l = .eof → word = [] → rest = [] →
      Says before word rest (.token ⟨l, spanOf before word⟩)
  | refused {message : String} : Taken word rest (.error message) →
      Says before word rest (.complaint (.error message (spanOf before word)))
  | tab : word = ['\t'] → (∀ c ∈ lastLine before, isBlank c = true) → Says before word rest
      (.complaint (.error "tabs are not allowed in indentation" (spanOf before word)))
  | level : IsIndentation before word rest → Says before word rest (levelComplaint before word)

/-- What needs no item: blanks, the end of a line without text, and comments. -/
inductive LeftOut (before : List Char) : Char → Prop
  | blank {c : Char} : c = ' ' ∨ c = '\t' ∨ c = '\r' → LeftOut before c
  | lineEnd : ¬ HasText (lastLine before) → LeftOut before '\n'
  | comment {c : Char} : c ≠ '\n' → '#' ∈ lastLine before ++ [c] → LeftOut before c

/-- The second token stands behind the first, unless both are ends of blocks at the start of one
line. -/
def Token.Apart (t t' : Token) : Prop :=
  t.span.stop ≤ t'.span.start ∨ t.lexeme = .dedent ∧ t' = t ∧ t.span.column = 1

/-- Items inside an indentation: they stand in it, and the tokens among them stand at all of it. -/
structure InIndentation (before blanks rest : List Char) (items : List Item) : Prop where
  blank : ∀ c ∈ blanks, isBlank c = true
  told : ∀ item ∈ items, ∃ front word more, blanks = front ++ (word ++ more) ∧
    item.Says (before ++ front) word (more ++ rest)
  apart : (items.filterMap Item.token?).Pairwise Token.Apart

/-- The items account for the text behind `before`. -/
inductive Covers : List Char → List Char → List Item → Prop
  | nil {before : List Char} : Covers before [] []
  | skip {before rest : List Char} {c : Char} {items : List Item} : LeftOut before c →
      Covers (before ++ [c]) rest items → Covers before (c :: rest) items
  | indentation {before blanks rest : List Char} {front items : List Item} :
      InIndentation before blanks rest front → Covers (before ++ blanks) rest items →
      Covers before (blanks ++ rest) (front ++ items)
  | piece {before word rest : List Char} {item : Item} {items : List Item} :
      item.Says before word rest → Covers (before ++ word) rest items →
      Covers before (word ++ rest) (item :: items)

theorem Item.Says.span {item : Item} (h : item.Says before word rest) : item.span = spanOf before word := by
  cases h <;> rfl

theorem isBlank_iff : isBlank d = true ↔ d = ' ' ∨ d = '\t' ∨ d = '\r' := by
  simp [isBlank, or_assoc]

/-! ## Passing over -/

variable {items front : List Item} {levels : List Nat}

/-- What is left out is passed over. -/
theorem Covers.skips {skipped : List Char} (hrest : Covers (before ++ skipped) rest items)
    (h : ∀ front c more, skipped = front ++ c :: more → LeftOut (before ++ front) c) :
    Covers before (skipped ++ rest) items := by
  induction skipped generalizing before with
  | nil => rwa [List.append_nil] at hrest
  | cons c skipped ih =>
    refine .skip (by simpa using h [] c skipped rfl) (ih (by simpa using hrest) ?_)
    rintro front d more rfl
    simpa using h (c :: front) d more rfl

/-- A comment is passed over. -/
theorem Covers.comment {comment : List Char} (hcomment : NoText comment) (hline : '\n' ∉ comment)
    (hrest : Covers (before ++ comment) rest items) : Covers before (comment ++ rest) items := by
  refine hrest.skips fun front c more heq => ?_
  obtain rfl | hhead := hcomment
  · simp at heq
  subst heq
  have hfront : '\n' ∉ front := fun hmem => hline (List.mem_append_left _ hmem)
  have hc : c ≠ '\n' := fun heq => hline (by simp [heq])
  refine .comment hc ?_
  -- The mark is the character itself, or before it.
  cases front with
  | nil =>
    obtain rfl : c = '#' := by simpa using hhead
    exact List.mem_append_right _ List.mem_cons_self
  | cons d front =>
    obtain rfl : d = '#' := by simpa using hhead
    rw [lastLine_append hfront]
    simp

/-! ## The items of the reader -/

/-- What stands at a place without width. -/
theorem Covers.mark {item : Item} (h : item.Says before [] rest) (hitems : Covers before rest items) :
    Covers before rest (item :: items) := by
  rw [← List.append_nil before] at hitems
  exact .piece h hitems

/-- At the end of the text. -/
theorem closing_covers (h : c.Behind before) : Covers before [] (closing levels c) := by
  have hspan : c.spanTo c = spanOf before [] := h.spanTo (by rwa [List.append_nil])
  have heof : Covers before [] [.token ⟨.eof, spanOf before []⟩] :=
    .mark (.closing (.inr rfl) rfl rfl) .nil
  unfold closing
  rw [hspan]
  induction levels.drop 1 with
  | nil => exact heof
  | cons level levels ih => exact .mark (.closing (.inl rfl) rfl rfl) ih

/-- The complaints about tabs stand at the tabs. -/
theorem mem_tabComplaints {n : Nat} {item : Item} (h : c.Behind before) (hline : '\n' ∉ c.rest.take n)
    (hmem : item ∈ tabComplaints c n) : ∃ front more, c.rest.take n = front ++ '\t' :: more ∧
      item = .complaint (.error "tabs are not allowed in indentation" (spanOf (before ++ front) ['\t'])) := by
  induction n generalizing before c with
  | zero => cases hmem
  | succ n ih =>
    -- Either way the rest of the indentation is gone through from the next character on.
    have hone : c.rest.take 1 ⊆ c.rest.take (n + 1) := List.take_subset_take_left _ (Nat.le_add_left 1 n)
    have hafter := h.advance fun hmem => hline (hone hmem)
    have hlater : item ∈ tabComplaints (c.advance 1) n → ∃ front more,
        c.rest.take (n + 1) = front ++ '\t' :: more ∧ item = .complaint
          (.error "tabs are not allowed in indentation" (spanOf (before ++ front) ['\t'])) := by
      intro hmem
      have hrest : c.rest.take (n + 1) = c.rest.take 1 ++ (c.advance 1).rest.take n := by
        rw [Cursor.rest_advance, Nat.add_comm, List.take_add]
      obtain ⟨front, more, htake, rfl⟩ := ih hafter
        (fun hmem => hline (hrest ▸ List.mem_append_right _ hmem)) hmem
      refine ⟨c.rest.take 1 ++ front, more, by rw [hrest, htake, List.append_assoc], ?_⟩
      rw [List.append_assoc]
    unfold tabComplaints at hmem
    dsimp only at hmem
    split at hmem
    · next htab =>
      obtain ⟨rest, hrest⟩ := List.head?_eq_some_iff.1 htab
      rcases List.mem_cons.1 hmem with rfl | hmem
      · refine ⟨[], rest.take n, by rw [hrest]; rfl, ?_⟩
        have hspan := h.spanTo hafter
        rw [hrest] at hspan
        rw [hspan, List.append_nil]
        rfl
      · exact hlater hmem
    · exact hlater hmem

theorem tokens_tabComplaints (c : Cursor) (n : Nat) : (tabComplaints c n).filterMap Item.token? = [] := by
  induction n generalizing c with
  | zero => rfl
  | succ n ih =>
    unfold tabComplaints
    dsimp only
    split
    · exact ih _
    · exact ih _

theorem tabsAt_inIndentation (h : c.Behind before) (hstart : lastLine before = []) :
    InIndentation before (c.rest.takeWhile isBlank) (c.rest.dropWhile isBlank) (tabsAt c) where
  blank _ hd := List.mem_takeWhile_imp hd
  told item hmem := by
    have hall : ∀ d ∈ c.rest.takeWhile isBlank, isBlank d = true := fun _ hd => List.mem_takeWhile_imp hd
    have hline : '\n' ∉ c.rest.takeWhile isBlank := fun hmem => absurd (hall _ hmem) (by decide)
    have htake := (List.prefix_iff_eq_take.1 (List.takeWhile_prefix (l := c.rest) isBlank)).symm
    obtain ⟨front, more, heq, rfl⟩ := mem_tabComplaints h (by rwa [htake]) hmem
    rw [htake] at heq
    rw [heq] at hall hline
    refine ⟨front, ['\t'], more, heq, .tab rfl fun d hd => ?_⟩
    rw [lastLine_append fun hmem => hline (List.mem_append_left _ hmem), hstart] at hd
    exact hall d (List.mem_append_left _ hd)
  apart := by
    rw [tabsAt, tokens_tabComplaints]
    exact .nil

/-- Where an indentation ends blocks, all tokens are the same. -/
theorem IsIndentation.dedents (h : IsIndentation before word rest) (hitems : ∀ item ∈ items,
    item = .token ⟨.dedent, spanOf before word⟩ ∨ item = levelComplaint before word) :
    InIndentation before word rest items where
  blank := h.blank
  told item hmem := by
    refine ⟨[], word, [], by simp, ?_⟩
    rw [List.append_nil, List.nil_append]
    obtain rfl | rfl := hitems item hmem
    · exact .layout (.inr rfl) h
    · exact .level h
  apart := by
    have hcolumn : (spanOf before word).column = 1 := by
      unfold spanOf
      rw [h.starts]
      rfl
    have htoken : ∀ t ∈ items.filterMap Item.token?, t = ⟨.dedent, spanOf before word⟩ := by
      intro t hmem
      obtain ⟨item, hitem, heq⟩ := List.mem_filterMap.1 hmem
      obtain rfl | rfl := hitems item hitem
      · exact (Option.some.inj heq).symm
      · cases heq
    refine List.pairwise_of_forall_mem_list fun t ht t' ht' => .inr ?_
    rw [htoken t ht, htoken t' ht']
    exact ⟨rfl, rfl, hcolumn⟩

theorem layout_inIndentation (h : IsIndentation before word rest) (levels : List Nat) (width : Nat) :
    InIndentation before word rest (layout levels width (spanOf before word)).1 := by
  unfold layout
  split
  · refine ⟨h.blank, fun item hmem => ⟨[], word, [], by simp, ?_⟩, List.pairwise_singleton _ _⟩
    rw [List.append_nil, List.nil_append, List.mem_singleton.1 hmem]
    exact .layout (.inl rfl) h
  · refine h.dedents fun item hmem => ?_
    dsimp only at hmem
    split at hmem
    · obtain ⟨_, -, rfl⟩ := List.mem_map.1 hmem
      exact .inl rfl
    · obtain hmem | hmem := List.mem_append.1 hmem
      · obtain ⟨_, -, rfl⟩ := List.mem_map.1 hmem
        exact .inl rfl
      · exact .inr (List.mem_singleton.1 hmem)

/-- The complaints about tabs come before the tokens of the indentation. -/
theorem InIndentation.append (h : InIndentation before blanks rest front)
    (htokens : front.filterMap Item.token? = []) (h' : InIndentation before blanks rest items) :
    InIndentation before blanks rest (front ++ items) where
  blank := h.blank
  told item hmem := (List.mem_append.1 hmem).elim (h.told item) (h'.told item)
  apart := by
    rw [List.filterMap_append, htokens]
    exact h'.apart

/-- A token ends before its line does. -/
theorem newline_not_mem_take (hrest : c.rest = d :: rest) (hd : d ≠ '\n') :
    '\n' ∉ c.rest.take (lexemeAt c.rest).2 := by
  have hline : c.rest.takeWhile (· != '\n') ≠ [] := by
    rw [hrest, List.takeWhile_cons_of_pos (by simpa using hd)]
    exact List.cons_ne_nil _ _
  have htail : EndOfLine (c.rest.dropWhile (· != '\n')) := by
    intro e he
    have hnot := List.head?_dropWhile_not (· != '\n') c.rest
    rw [Option.mem_def] at he
    simpa [he] using hnot
  -- The reader says the same of the line alone, and takes no more than there is.
  have hlexeme := lexemeAt_append_tail hline htail.delimits
  have hle := lexemeAt_le hline
  rw [List.takeWhile_append_dropWhile] at hlexeme
  rw [← hlexeme] at hle
  have hsplit := (List.takeWhile_append_dropWhile (p := (· != '\n')) (l := c.rest)).symm
  have htake := (congrArg (List.take (lexemeAt c.rest).2) hsplit).trans
    (List.take_append_of_le_length hle)
  intro hmem
  rw [htake] at hmem
  exact absurd (List.mem_takeWhile_imp (List.mem_of_mem_take hmem)) (by simp)

/-- What is read at a place. -/
theorem scanToken_says (h : c.Behind before) (hrest : c.rest = d :: rest) (hd : d ≠ '\n') :
    ∃ word, c.rest = word ++ (scanToken c).2.rest ∧ (scanToken c).2.Behind (before ++ word) ∧
      (scanToken c).1.Says before word (scanToken c).2.rest := by
  have hne : c.rest ≠ [] := by simp [hrest]
  obtain ⟨word, tail, hsplit, hlength, htaken⟩ := lexemeAt_taken hne
  have htake : c.rest.take (lexemeAt c.rest).2 = word := by
    rw [hlength, hsplit, List.take_left]
  have hnext : (scanToken c).2.rest = tail := by
    rw [scanToken_snd, Cursor.rest_advance, hlength, hsplit, List.drop_left]
  have hafter := h.advance (newline_not_mem_take hrest hd)
  have hspan := h.spanTo hafter
  rw [htake] at hafter hspan
  refine ⟨word, by rw [hnext, hsplit], by rwa [scanToken_snd], ?_⟩
  rw [hnext]
  unfold scanToken
  rcases hread : lexemeAt c.rest with ⟨message | l, n⟩
  all_goals
    rw [hread] at htaken hspan
    dsimp only at hspan ⊢
    rw [hspan]
  · exact .refused htaken
  · exact .lexeme htaken

section

variable {comment : List Char}

theorem Cursor.Passes.all_blank (h : c.Passes before blanks comment) : ∀ d ∈ blanks, isBlank d = true := by
  rw [← h.takeWhile]
  exact fun d hd => List.mem_takeWhile_imp hd

/-- Within a line, blanks and a comment are passed over. -/
theorem Cursor.Passes.covers (h : c.Passes before blanks comment)
    (hrest : Covers (before ++ blanks ++ comment) c.skipBlanks.rest items) : Covers before c.rest items := by
  rw [h.split]
  exact (hrest.comment h.noText h.oneLine).skips fun _ d _ heq =>
    .blank (isBlank_iff.1 (h.all_blank d (by simp [heq])))

/-- At the start of a line there may be complaints about tabs. -/
theorem Cursor.Passes.covers_tabs (h : c.Passes before blanks comment) (hbehind : c.Behind before)
    (hstart : lastLine before = [])
    (hrest : Covers (before ++ blanks ++ comment) c.skipBlanks.rest items) :
    Covers before c.rest (tabsAt c ++ items) := by
  have htabs := tabsAt_inIndentation hbehind hstart
  have hdrop : c.rest.dropWhile isBlank = comment ++ c.skipBlanks.rest := by
    refine (List.append_right_inj blanks).1 ?_
    rw [← h.split, ← h.takeWhile, List.takeWhile_append_dropWhile]
  rw [h.takeWhile, hdrop] at htabs
  rw [h.split]
  exact .indentation htabs (hrest.comment h.noText h.oneLine)

/-- A line that is passed over has no text. -/
theorem Cursor.Passes.not_hasText (h : c.Passes before blanks comment) (hstart : lastLine before = []) :
    ¬ HasText (lastLine (before ++ blanks ++ comment)) := by
  have hblanks : '\n' ∉ blanks := fun hmem => absurd (h.all_blank _ hmem) (by decide)
  have hdrop : (blanks ++ comment).dropWhile isBlank = comment := by
    rw [List.dropWhile_append_of_pos h.all_blank]
    obtain rfl | hhash := h.noText
    · rfl
    · obtain ⟨more, rfl⟩ := List.head?_eq_some_iff.1 hhash
      rfl
  rw [lastLine_append h.oneLine, lastLine_append hblanks, hstart, List.nil_append, HasText, hdrop]
  exact fun hno => hno h.noText

end

theorem isIndentation_takeWhile (hstart : lastLine before = []) :
    IsIndentation before (chars.takeWhile isBlank) (chars.dropWhile isBlank) where
  starts := hstart
  blank _ hd := List.mem_takeWhile_imp hd
  ends d hd := by
    have hnot := List.head?_dropWhile_not isBlank chars
    rw [Option.mem_def] at hd
    simpa [hd] using hnot

/-- The items of the reader account for the text, from the start of a line and within one. -/
theorem lines_cover :
    (∀ levels (c : Cursor), ∀ before, c.Behind before → lastLine before = [] →
      Covers before c.rest (lineStart levels c)) ∧
    ∀ levels (c : Cursor), ∀ before, c.Behind before → Covers before c.rest (lineRest levels c) := by
  -- By induction on the reader: where a line starts, and where it goes on.
  apply line_induction
  case start_nil =>
    intro levels c hrest before h hstart
    obtain ⟨blanks, comment, hpass⟩ := h.skipBlanks
    rw [lineStart_of_nil hrest]
    refine hpass.covers_tabs h hstart ?_
    rw [hrest]
    exact closing_covers hpass.behind
  case start_newline =>
    intro levels c rest hrest ih before h hstart
    obtain ⟨blanks, comment, hpass⟩ := h.skipBlanks
    have hnext := ih _ hpass.behind.nextLine (lastLine_newline _)
    rw [Cursor.rest_nextLine, hrest] at hnext
    rw [lineStart_of_newline hrest]
    refine hpass.covers_tabs h hstart ?_
    rw [hrest]
    exact .skip (.lineEnd (hpass.not_hasText hstart)) hnext
  case start_text =>
    intro levels c d rest hrest hd ih before h hstart
    have hskip := Cursor.skipBlanks_of_text hrest hd
    have hafter := h.skipWhile (p := isBlank) (by decide)
    have hspan := h.spanTo hafter
    rw [← hskip] at hafter hspan
    have hfront := (tabsAt_inIndentation h hstart).append (tokens_tabComplaints _ _)
      (layout_inIndentation (isIndentation_takeWhile hstart) levels (indentWidth (c.rest.takeWhile isBlank)))
    have hlater := fun inner => ih inner _ hafter
    rw [hskip, Cursor.rest_skipWhile, ← hskip] at hlater
    have hcovers := fun inner => Covers.indentation hfront (hlater inner)
    rw [List.takeWhile_append_dropWhile] at hcovers
    rw [lineStart_of_text hrest hd, hspan, ← List.append_assoc]
    exact hcovers _
  case within_nil =>
    intro levels c hrest before h
    obtain ⟨blanks, comment, hpass⟩ := h.skipBlanks
    have hspan : c.skipBlanks.spanTo c.skipBlanks = spanOf (before ++ blanks ++ comment) [] :=
      hpass.behind.spanTo (by rw [List.append_nil]; exact hpass.behind)
    rw [lineRest_of_nil hrest, hspan]
    refine hpass.covers ?_
    rw [hrest]
    exact .mark (.newline (.inr ⟨rfl, rfl⟩)) (closing_covers hpass.behind)
  case within_newline =>
    intro levels c rest hrest ih before h
    obtain ⟨blanks, comment, hpass⟩ := h.skipBlanks
    have hoffset : (c.skipBlanks.advance 1).offset = c.skipBlanks.nextLine.offset := by
      unfold Cursor.advance
      rw [hrest]
      rfl
    have hnext := ih _ hpass.behind.nextLine (lastLine_newline _)
    rw [Cursor.rest_nextLine, hrest] at hnext
    have hspan : c.skipBlanks.spanTo (c.skipBlanks.advance 1) =
        spanOf (before ++ blanks ++ comment) ['\n'] := by
      rw [← hpass.behind.spanTo hpass.behind.nextLine, Cursor.spanTo, hoffset]
      rfl
    rw [lineRest_of_newline hrest, hspan]
    refine hpass.covers ?_
    rw [hrest]
    show Covers _ (['\n'] ++ rest) _
    exact .piece (.newline (.inl rfl)) hnext
  case within_text =>
    intro levels c d rest hrest hd ih before h
    obtain ⟨blanks, comment, hpass⟩ := h.skipBlanks
    obtain ⟨word, hword, hnext, hpiece⟩ := scanToken_says hpass.behind hrest hd
    rw [lineRest_of_text hrest hd]
    refine hpass.covers ?_
    rw [hword]
    exact .piece hpiece (ih _ hnext)

/-! ## What follows -/

/-- Every item stands where its span says. -/
theorem Covers.stands (h : Covers before rest items) : ∀ item ∈ items, ∃ front word more,
    rest = front ++ (word ++ more) ∧ item.Says (before ++ front) word more := by
  induction h with
  | nil => exact fun item hmem => absurd hmem List.not_mem_nil
  | @skip before _ c _ _ _ ih =>
    intro item hmem
    obtain ⟨front, word, more, rfl, hpiece⟩ := ih item hmem
    exact ⟨c :: front, word, more, rfl, by simpa using hpiece⟩
  | @indentation before blanks _ _ _ hfront _ ih =>
    intro item hmem
    obtain hmem | hmem := List.mem_append.1 hmem
    · obtain ⟨front, word, more, rfl, hpiece⟩ := hfront.told item hmem
      exact ⟨front, word, _, by simp, hpiece⟩
    · obtain ⟨front, word, more, rfl, hpiece⟩ := ih item hmem
      exact ⟨blanks ++ front, word, more, (List.append_assoc _ _ _).symm, by simpa using hpiece⟩
  | @piece before here _ _ _ hitem _ ih =>
    intro item hmem
    obtain rfl | hmem := List.mem_cons.1 hmem
    · exact ⟨[], _, _, rfl, by simpa using hitem⟩
    · obtain ⟨front, word, more, rfl, hpiece⟩ := ih item hmem
      exact ⟨here ++ front, word, more, (List.append_assoc _ _ _).symm, by simpa using hpiece⟩

theorem Covers.start_le (h : Covers before rest items) {item : Item} (hmem : item ∈ items) :
    byteLength before ≤ item.span.start := by
  obtain ⟨front, word, more, -, hpiece⟩ := h.stands item hmem
  rw [hpiece.span, spanOf, byteLength_append]
  exact Nat.le_add_right _ _

theorem InIndentation.stop_le (h : InIndentation before blanks rest front) {item : Item}
    (hmem : item ∈ front) : item.span.stop ≤ byteLength (before ++ blanks) := by
  obtain ⟨inner, word, more, rfl, hpiece⟩ := h.told item hmem
  rw [hpiece.span, spanOf]
  simp only [byteLength_append]
  omega

theorem span_of_token? {item : Item} {t : Token} (h : item.token? = some t) : item.span = t.span := by
  cases item <;> cases h
  rfl

/-- Tokens stand behind one another. -/
theorem Covers.apart (h : Covers before rest items) :
    (items.filterMap Item.token?).Pairwise Token.Apart := by
  induction h with
  | nil => exact .nil
  | skip _ _ ih => exact ih
  | indentation hfront hcovers ih =>
    rw [List.filterMap_append]
    refine List.pairwise_append.2 ⟨hfront.apart, ih, fun t ht t' ht' => .inl ?_⟩
    obtain ⟨item, hitem, htoken⟩ := List.mem_filterMap.1 ht
    obtain ⟨item', hitem', htoken'⟩ := List.mem_filterMap.1 ht'
    rw [← span_of_token? htoken, ← span_of_token? htoken']
    exact (hfront.stop_le hitem).trans (hcovers.start_le hitem')
  | @piece before word rest item items hitem hcovers ih =>
    cases item with
    | complaint d => exact ih
    | token t =>
      refine List.pairwise_cons.2 ⟨fun t' ht' => .inl ?_, ih⟩
      obtain ⟨item', hitem', htoken'⟩ := List.mem_filterMap.1 ht'
      have hstop : t.span.stop = byteLength (before ++ word) := by
        rw [byteLength_append]
        exact congrArg Span.stop hitem.span
      rw [hstop, ← span_of_token? htoken']
      exact hcovers.start_le hitem'

/-- A character of a text is in its first part, or beyond it. -/
theorem mem_or_beyond {front more : List Char} (h : word ++ rest = front ++ d :: more) :
    (∃ inner, word = front ++ d :: inner) ∨
      ∃ beyond, front = word ++ beyond ∧ rest = beyond ++ d :: more := by
  obtain ⟨beyond, rfl, rfl⟩ | ⟨inner, rfl, hinner⟩ := List.append_eq_append_iff.1 h
  · exact .inr ⟨beyond, rfl, rfl⟩
  · cases inner with
    | nil => exact .inr ⟨[], by simp, hinner.symm⟩
    | cons e inner =>
      cases hinner
      exact .inl ⟨inner, rfl⟩

/-- A byte where no item stands is left out. -/
theorem Covers.leftOut (h : Covers before rest items) {front more : List Char} {byte : Nat}
    (hrest : rest = front ++ d :: more) (hfirst : byteLength (before ++ front) ≤ byte)
    (hlast : byte < byteLength (before ++ front) + d.utf8Size)
    (hnone : ∀ item ∈ items, ¬ (item.span.start ≤ byte ∧ byte < item.span.stop)) :
    LeftOut (before ++ front) d := by
  induction h generalizing front with
  | nil => simp at hrest
  | @skip before rest c items hout hcovers ih =>
    cases front with
    | nil =>
      cases hrest
      rwa [List.append_nil]
    | cons c front =>
      cases hrest
      rw [List.append_cons] at hfirst hlast ⊢
      exact ih rfl hfirst hlast hnone
  | indentation hfront _ ih =>
    obtain ⟨inner, rfl⟩ | ⟨beyond, rfl, rfl⟩ := mem_or_beyond hrest
    · exact .blank (isBlank_iff.1 (hfront.blank d (by simp)))
    · rw [← List.append_assoc] at hfirst hlast ⊢
      exact ih rfl hfirst hlast fun item hmem => hnone item (List.mem_append_right _ hmem)
  | @piece before word rest item items hitem _ ih =>
    obtain ⟨inner, rfl⟩ | ⟨beyond, rfl, rfl⟩ := mem_or_beyond hrest
    · refine absurd ?_ (hnone item List.mem_cons_self)
      have hword : byteLength (front ++ d :: inner) = byteLength front + (d.utf8Size + byteLength inner) :=
        byteLength_append _ _
      rw [byteLength_append] at hfirst hlast
      rw [hitem.span, spanOf, hword]
      dsimp only
      omega
    · rw [← List.append_assoc] at hfirst hlast ⊢
      exact ih rfl hfirst hlast fun item hmem => hnone item (List.mem_cons_of_mem _ hmem)

theorem eq_of_byteLength {before' rest' : List Char} (htext : before ++ rest = before' ++ rest')
    (hlength : byteLength before = byteLength before') : before = before' ∧ rest = rest' := by
  have hnil : ∀ chars, byteLength chars = 0 → chars = [] := by
    rintro (_ | ⟨c, chars⟩) hzero
    · rfl
    · exact absurd (Nat.eq_zero_of_add_eq_zero_right hzero) c.utf8Size_pos.ne'
  obtain ⟨more, rfl, rfl⟩ | ⟨more, rfl, rfl⟩ := List.append_eq_append_iff.1 htext
  all_goals
    rw [byteLength_append] at hlength
    obtain rfl := hnil more (by omega)
    simp

/-- Where a span is in a text is where its piece is. -/
theorem spanOf_inj {before' word' rest' : List Char}
    (htext : before ++ (word ++ rest) = before' ++ (word' ++ rest'))
    (hspan : spanOf before word = spanOf before' word') :
    before = before' ∧ word = word' ∧ rest = rest' := by
  obtain ⟨hstart, hstop, -, -⟩ := Span.mk.inj hspan
  obtain ⟨rfl, hrest⟩ := eq_of_byteLength htext hstart
  exact ⟨rfl, eq_of_byteLength hrest (Nat.add_left_cancel hstop)⟩

theorem not_isDigits_of_blank (hblank : ∀ c ∈ word, isBlank c = true) : Literal.isDigits word ≠ true := by
  intro hdigits
  obtain ⟨hne, hall⟩ := isDigits_iff.1 hdigits
  obtain ⟨c, more, rfl⟩ := List.exists_cons_of_ne_nil hne
  have hc := (isBlank_of_isNamePart (isNamePart_of_isDigit (hall c List.mem_cons_self))).1
  rw [hblank c List.mem_cons_self] at hc
  cases hc

/-- Digits are an integer if their value is not too large, and else there is a complaint. -/
theorem Item.Says.of_digits {item : Item} (h : item.Says before word rest)
    (hdigits : Literal.isDigits word = true) :
    if Literal.digitsValue word ≤ 2 ^ 63 - 1 then
      ∃ value : Int64, value.toInt = Literal.digitsValue word ∧ item = .token ⟨.integer value, item.span⟩
    else item = .complaint (.error "integer literal out of range" item.span) := by
  cases h with
  | lexeme htaken =>
    cases htaken with
    | lexeme hwritten _ =>
      obtain ⟨value, rfl, hvalue⟩ := hwritten.integer_of_digits hdigits
      have hlt := value.toInt_lt
      rw [if_pos (by omega)]
      exact ⟨value, hvalue, rfl⟩
  | newline hword =>
    obtain rfl | ⟨rfl, -⟩ := hword <;> cases hdigits
  | layout _ hword => exact absurd hdigits (not_isDigits_of_blank hword.blank)
  | closing _ hword _ =>
    rw [hword] at hdigits
    cases hdigits
  | refused htaken =>
    cases htaken with
    | outOfRange _ hlarge _ => rw [if_neg (Nat.not_le_of_lt hlarge)]; rfl
    | @invalid c hword hnone =>
      -- A single digit would be read as an integer.
      subst hword
      have hle := digitsValue_singleton_le ((isDigits_iff.1 hdigits).2 c List.mem_cons_self)
      obtain ⟨value, hwritten⟩ := isWritten_integer hdigits (by omega)
      exact absurd (List.prefix_append _ _) (hnone _ _ hwritten)
  | tab hword _ =>
    rw [hword] at hdigits
    cases hdigits
  | level hword => exact absurd hdigits (not_isDigits_of_blank hword.blank)

/-! ## A whole text -/

/-- Every byte and every position of the text is accounted for. -/
structure Accounted (text : String) : Prop where
  /-- every item stands in the text at the place that its span gives, and says what is there -/
  told : ∀ item ∈ scanItems text, ∃ before word rest, text.toList = before ++ (word ++ rest) ∧
    item.span = spanOf before word ∧ item.Says before word rest
  /-- spans lie in the text -/
  inside : ∀ item ∈ scanItems text,
    item.span.start ≤ item.span.stop ∧ item.span.stop ≤ text.utf8ByteSize
  /-- tokens do not overlap, but for the ends of blocks at the start of one line -/
  apart : (scan text).tokens.Pairwise Token.Apart
  /-- digits are an integer, if their value is not too large, and else there is a complaint -/
  integers : ∀ item ∈ scanItems text, ∀ before word rest, text.toList = before ++ (word ++ rest) →
    item.span = spanOf before word → Literal.isDigits word = true →
      if Literal.digitsValue word ≤ 2 ^ 63 - 1 then
        ∃ value : Int64, value.toInt = Literal.digitsValue word ∧
          item = .token ⟨.integer value, item.span⟩
      else item = .complaint (.error "integer literal out of range" item.span)
  /-- a byte where no item stands belongs to a blank, to the end of a line without text, or to a
  comment -/
  leftOut : ∀ before c rest byte, text.toList = before ++ c :: rest → byteLength before ≤ byte →
    byte < byteLength before + c.utf8Size →
    (∀ item ∈ scanItems text, ¬ (item.span.start ≤ byte ∧ byte < item.span.stop)) → LeftOut before c

theorem scanItems_covers (text : String) : Covers [] text.toList (scanItems text) :=
  lines_cover.1 _ _ _ (.ofText text) rfl

/-- The items of a text account for all of it. -/
theorem scan_accounted (text : String) : Accounted text := by
  have hcovers := scanItems_covers text
  have htold : ∀ item ∈ scanItems text, ∃ before word rest, text.toList = before ++ (word ++ rest) ∧
      item.span = spanOf before word ∧ item.Says before word rest := by
    intro item hmem
    obtain ⟨before, word, rest, heq, hpiece⟩ := hcovers.stands item hmem
    exact ⟨before, word, rest, heq, hpiece.span, hpiece⟩
  constructor
  case told => exact htold
  case inside =>
    intro item hmem
    obtain ⟨before, word, rest, heq, hspan, -⟩ := htold item hmem
    rw [← byteLength_toList, heq, hspan, byteLength_append, byteLength_append]
    exact ⟨Nat.le_add_right _ _, by simp only [spanOf]; omega⟩
  case apart => exact hcovers.apart
  case integers =>
    intro item hmem before word rest heq hspan hdigits
    obtain ⟨before', word', rest', heq', hspan', hpiece⟩ := htold item hmem
    obtain ⟨rfl, rfl, rfl⟩ := spanOf_inj (heq.symm.trans heq') (hspan.symm.trans hspan')
    exact hpiece.of_digits hdigits
  case leftOut =>
    intro before c rest byte heq hfirst hlast hnone
    exact hcovers.leftOut heq hfirst hlast hnone

end

end Abacus
