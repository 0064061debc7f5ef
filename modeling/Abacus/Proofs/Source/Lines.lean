import Abacus.Proofs.Source.Scanning

/-!
# The lines of a text

A text that is read without complaints gives the lexemes of its lines, and then the ends of the blocks
that are still open. What its lines give does not depend on what follows them.

* `Spells` — items that are tokens with places, of given lexemes;
* `Lines` — the lexemes of some lines, with the open levels before and after them;
* `lines_read` — every text without complaints consists of such lines;
* `scan_whole` — the tokens of a text, as a parser needs them;
* `scan_append` — the tokens of two texts with a line end between them.
-/

namespace Abacus

open Cursor (skipBlanks)

/-! ## Items without complaints -/

/-- Nothing is complained about. -/
def Quiet (items : List Item) : Prop := ∀ d, Item.complaint d ∉ items

/-- The items are tokens with places, of the given lexemes. -/
def Spells (items : List Item) (ls : List Lexeme) : Prop :=
  ∃ ts : List Token, items = ts.map Item.token ∧ ts.map Token.lexeme = ls ∧
    ∀ t ∈ ts, t.span.IsPlace

section

variable {items items' : List Item} {ls ls' : List Lexeme}

theorem quiet_append : Quiet (items ++ items') ↔ Quiet items ∧ Quiet items' := by
  unfold Quiet
  simp only [List.mem_append, not_or, forall_and]

theorem quiet_cons {item : Item} : Quiet (item :: items) ↔ Quiet [item] ∧ Quiet items := by
  rw [← List.singleton_append, quiet_append]

theorem spells_nil : Spells [] [] := ⟨[], rfl, rfl, by simp⟩

theorem spells_single {l : Lexeme} {span : Span} (h : span.IsPlace) :
    Spells [.token ⟨l, span⟩] [l] :=
  ⟨[⟨l, span⟩], rfl, rfl, by simpa using h⟩

theorem Spells.append (h : Spells items ls) (h' : Spells items' ls') :
    Spells (items ++ items') (ls ++ ls') := by
  obtain ⟨ts, rfl, rfl, hts⟩ := h
  obtain ⟨ts', rfl, rfl, hts'⟩ := h'
  refine ⟨ts ++ ts', by simp, by simp, fun t ht => ?_⟩
  exact (List.mem_append.1 ht).elim (hts t) (hts' t)

theorem spells_replicate {l : Lexeme} {span : Span} (h : span.IsPlace) (levels : List Nat) :
    Spells (levels.map fun _ => .token ⟨l, span⟩) (List.replicate levels.length l) := by
  induction levels with
  | nil => exact spells_nil
  | cons _ levels ih => exact (spells_single h).append ih

end

/-! ## Tabs -/

section

variable {c c' : Cursor} {chars tail : List Char} {n : Nat}

theorem not_mem_of_tabComplaints (h : Quiet (tabComplaints c n)) : '\t' ∉ c.rest.take n := by
  induction n generalizing c with
  | zero => simp
  | succ n ih =>
    unfold tabComplaints at h
    dsimp only at h
    split at h
    · exact absurd List.mem_cons_self (h _)
    · next hno =>
      have hrest := ih h
      cases hc : c.rest with
      | nil => simp
      | cons d rest =>
        simp only [Cursor.rest_advance, hc, List.drop_succ_cons, List.drop_zero] at hrest
        simp only [hc, List.head?_cons, Option.some.injEq] at hno
        simp [hrest, Ne.symm hno]

theorem tabComplaints_eq_nil (h : '\t' ∉ c.rest.take n) : tabComplaints c n = [] := by
  induction n generalizing c with
  | zero => rfl
  | succ n ih =>
    unfold tabComplaints
    cases hc : c.rest with
    | nil =>
      rw [if_neg (by simp)]
      exact ih (by simp [hc])
    | cons d rest =>
      simp only [hc, List.take_succ_cons, List.mem_cons, not_or] at h
      rw [if_neg (by simpa using h.1 ∘ Eq.symm)]
      exact ih (by simpa [hc] using h.2)

/-- Tabs at the start of a line are complained about wherever the line stands. -/
theorem tabsAt_eq_nil (h : Quiet (tabsAt c)) (hrest : c'.rest = c.rest ++ tail)
    (htail : EndOfLine tail) : tabsAt c' = [] := by
  have htake : ∀ chars : List Char, chars.take (chars.takeWhile isBlank).length =
      chars.takeWhile isBlank := fun chars => (List.prefix_iff_eq_take.1 (List.takeWhile_prefix _)).symm
  have hno := not_mem_of_tabComplaints h
  refine tabComplaints_eq_nil ?_
  rw [htake] at hno ⊢
  rwa [hrest, takeWhile_append_tail (htail.head_false (by decide))]

theorem tabsAt_of_same (h : Quiet (tabsAt c)) (hsame : c'.rest = c.rest) : tabsAt c' = [] :=
  tabsAt_eq_nil h (by rw [hsame, List.append_nil]) (by simp [EndOfLine])

end

/-! ## Levels -/

/-- Open levels: the outermost one has no indentation, the others have some. -/
def Levels (levels : List Nat) : Prop := ∃ upper, levels = upper ++ [0] ∧ ∀ width ∈ upper, 0 < width

/-- The ends of all blocks that are open. -/
def closers (levels : List Nat) : List Lexeme := List.replicate (levels.length - 1) .dedent

section

variable {levels : List Nat} {width : Nat} {span : Span}

theorem levels_start : Levels [0] := ⟨[], rfl, by simp⟩

theorem Levels.length_pos (h : Levels levels) : 0 < levels.length := by
  obtain ⟨upper, rfl, -⟩ := h
  simp

theorem Levels.dropWhile (h : Levels levels) (width : Nat) :
    Levels (levels.dropWhile (width < ·)) := by
  obtain ⟨upper, rfl, hupper⟩ := h
  rw [List.dropWhile_append]
  split
  · exact ⟨[], by simp, by simp⟩
  · exact ⟨_, rfl, fun w hw => hupper w (List.dropWhile_subset _ hw)⟩

/-- What a change of indentation gives, if it gives no complaint, does not depend on the place. -/
theorem layout_lines (h : Levels levels) (hquiet : Quiet (layout levels width span).1) :
    ∃ ls inner, Levels inner ∧ (∀ l ∈ ls, l = .indent ∨ l = .dedent) ∧
      ls.count .dedent + inner.length = ls.count .indent + levels.length ∧
      ∀ span : Span, (span.IsPlace → Spells (layout levels width span).1 ls) ∧
        (layout levels width span).2 = inner := by
  by_cases hdeeper : levels.headD 0 < width
  · refine ⟨[.indent], width :: levels, ?_, by simp, by simp [Nat.add_comm], fun span => ?_⟩
    · obtain ⟨upper, rfl, hupper⟩ := h
      refine ⟨width :: upper, rfl, ?_⟩
      simpa using ⟨by omega, hupper⟩
    · rw [layout, if_pos hdeeper]
      exact ⟨spells_single, rfl⟩
  · by_cases hopen : (levels.dropWhile (width < ·)).head? = some width
    · refine ⟨List.replicate (levels.takeWhile (width < ·)).length .dedent, _, h.dropWhile width, ?_, ?_,
        fun span => ?_⟩
      · intro l hl
        exact .inr (List.eq_of_mem_replicate hl)
      · have hlength := congrArg List.length
          (List.takeWhile_append_dropWhile (p := (width < ·)) (l := levels))
        rw [List.length_append] at hlength
        rw [List.count_replicate_self, List.count_replicate, if_neg (by decide)]
        omega
      · simp only [layout, if_neg hdeeper, if_pos hopen]
        exact ⟨fun hspan => spells_replicate hspan _, trivial⟩
    · simp only [layout, if_neg hdeeper, if_neg hopen] at hquiet
      exact absurd (List.mem_append_right _ (List.mem_singleton_self _)) (hquiet _)

/-- A line without indentation closes all blocks. -/
theorem layout_outermost (h : Levels levels) (hspan : span.IsPlace) :
    Spells (layout levels 0 span).1 (closers levels) ∧ (layout levels 0 span).2 = [0] := by
  obtain ⟨upper, rfl, hupper⟩ := h
  have htake : (upper ++ [0]).takeWhile (0 < ·) = upper := by
    rw [List.takeWhile_append_of_pos (by simpa using hupper)]
    simp
  have hdrop : (upper ++ [0]).dropWhile (0 < ·) = [0] := by
    rw [List.dropWhile_append_of_pos (by simpa using hupper)]
    simp
  simp only [layout, Nat.not_lt_zero, if_false, htake, hdrop, List.head?_cons, if_true]
  refine ⟨?_, trivial⟩
  simpa [closers] using spells_replicate hspan upper

theorem spells_closing {c : Cursor} (hc : 0 < c.line) :
    Spells (closing levels c) (closers levels ++ [.eof]) := by
  have hspan : (c.spanTo c).IsPlace := hc
  have h := (spells_replicate (l := .dedent) hspan (levels.drop 1)).append (spells_single (l := .eof) hspan)
  rwa [List.length_drop] at h

end

/-! ## Lines -/

/-- The lexemes of some lines, which leave the levels `inner` open: every block that they open is
closed or left open, and the last line has an end. -/
structure Lines (levels : List Nat) (body : List Lexeme) (inner : List Nat) : Prop where
  levelled : Levels inner
  unended : .eof ∉ body
  balanced : body.count .dedent + inner.length = body.count .indent + levels.length
  complete : ∀ l ∈ body.getLast?, l = .newline

/-- What comes after some lines: the end of the text, or what the next lines give. -/
def Ends (levels : List Nat) (tail : List Char) (items : List Item) : Prop :=
  (tail = [] ∧ ∃ c : Cursor, 0 < c.line ∧ items = closing levels c) ∨
    ∃ rest, tail = '\n' :: rest ∧ ∃ c : Cursor, 0 < c.line ∧ c.rest = rest ∧
      items = lineStart levels c

/-- Wherever the characters stand, and whatever lines follow, reading gives the lexemes of the lines
and then goes on with what follows. -/
def Reads (read : Cursor → List Item) (chars : List Char) (body : List Lexeme)
    (inner : List Nat) : Prop :=
  ∀ c tail, 0 < c.line → EndOfLine tail → c.rest = chars ++ tail →
    ∃ front ending, read c = front ++ ending ∧ Spells front body ∧ Ends inner tail ending

section

variable {levels inner : List Nat} {body ls : List Lexeme} {read next : Cursor → List Item}
  {chars chars' : List Char}

theorem Reads.step (ls : List Lexeme) (h : Reads next chars' body inner)
    (hstep : ∀ c tail, 0 < c.line → EndOfLine tail → c.rest = chars ++ tail →
      ∃ front c', read c = front ++ next c' ∧ Spells front ls ∧ 0 < c'.line ∧
        c'.rest = chars' ++ tail) :
    Reads read chars (ls ++ body) inner := by
  intro c tail hc htail hrest
  obtain ⟨front, c', hread, hfront, hc', hrest'⟩ := hstep c tail hc htail hrest
  obtain ⟨front', ending, hnext, hbody, hends⟩ := h c' tail hc' htail hrest'
  exact ⟨front ++ front', ending, by rw [hread, hnext, List.append_assoc], hfront.append hbody,
    hends⟩

theorem Lines.cons {l : Lexeme} (h : Lines levels body inner) (hl : l.isLayout = false)
    (hbody : body ≠ []) : Lines levels (l :: body) inner where
  levelled := h.levelled
  unended := by
    rintro (_ | ⟨_, hmem⟩)
    · cases hl
    · exact h.unended hmem
  balanced := by
    have hdedent : l ≠ .dedent := by
      rintro rfl
      cases hl
    have hindent : l ≠ .indent := by
      rintro rfl
      cases hl
    rw [List.count_cons_of_ne hdedent, List.count_cons_of_ne hindent]
    exact h.balanced
  complete := by
    rw [List.getLast?_cons_of_ne_nil hbody]
    exact h.complete

theorem Lines.newline (h : Lines levels body inner) : Lines levels (.newline :: body) inner where
  levelled := h.levelled
  unended := by simpa using h.unended
  balanced := by
    rw [List.count_cons_of_ne (by decide), List.count_cons_of_ne (by decide)]
    exact h.balanced
  complete := by
    intro l hl
    cases body with
    | nil => simpa using hl.symm
    | cons d rest => exact h.complete l (by simpa using hl)

theorem Lines.layout {middle : List Nat} (h : Lines middle body inner) (hbody : body ≠ [])
    (hls : ∀ l ∈ ls, l = .indent ∨ l = .dedent)
    (hcount : ls.count .dedent + middle.length = ls.count .indent + levels.length) :
    Lines levels (ls ++ body) inner where
  levelled := h.levelled
  unended := by
    rw [List.mem_append, not_or]
    exact ⟨fun hmem => by simpa using hls _ hmem, h.unended⟩
  balanced := by
    have hbalanced := h.balanced
    rw [List.count_append, List.count_append]
    omega
  complete := by
    rw [List.getLast?_append_of_ne_nil _ hbody]
    exact h.complete

/-! ## One step at a time -/

variable {c : Cursor} {rest : List Char} {d : Char}

theorem reads_start_nil (h : c.skipBlanks.rest = []) (htabs : Quiet (tabsAt c)) :
    Reads (lineStart levels) c.rest [] levels := by
  intro c' tail hc' htail hrest
  have hskip := Cursor.rest_skipBlanks_append hrest htail
  have hline := c'.line_skipBlanks
  rw [h, List.nil_append] at hskip
  refine ⟨[], _, rfl, spells_nil, ?_⟩
  cases tail with
  | nil =>
    rw [lineStart_of_nil hskip, tabsAt_eq_nil htabs hrest htail]
    exact .inl ⟨rfl, c'.skipBlanks, by omega, rfl⟩
  | cons d rest =>
    obtain rfl := htail d rfl
    rw [lineStart_of_newline hskip, tabsAt_eq_nil htabs hrest htail]
    exact .inr ⟨rest, rfl, c'.skipBlanks.nextLine, Nat.succ_pos _, by simp [hskip], rfl⟩

theorem reads_start_newline (h : c.skipBlanks.rest = '\n' :: rest) (htabs : Quiet (tabsAt c))
    (hnext : Reads (lineStart levels) rest body inner) :
    Reads (lineStart levels) c.rest body inner := by
  refine hnext.step [] fun c' tail hc' htail hrest => ?_
  have hskip := Cursor.rest_skipBlanks_append hrest htail
  rw [h, List.cons_append] at hskip
  refine ⟨[], c'.skipBlanks.nextLine, ?_, spells_nil, Nat.succ_pos _, by simp [hskip]⟩
  rw [lineStart_of_newline hskip, tabsAt_eq_nil htabs hrest htail]

theorem reads_start_text {middle : List Nat} (h : c.skipBlanks.rest = d :: rest) (hd : d ≠ '\n')
    (htabs : Quiet (tabsAt c))
    (hlayout : ∀ span : Span,
      (span.IsPlace → Spells (layout levels (indentWidth (c.rest.takeWhile isBlank)) span).1 ls) ∧
        (layout levels (indentWidth (c.rest.takeWhile isBlank)) span).2 = middle)
    (hnext : Reads (lineRest middle) c.skipBlanks.rest body inner) :
    Reads (lineStart levels) c.rest (ls ++ body) inner := by
  refine hnext.step ls fun c' tail hc' htail hrest => ?_
  have hskip := Cursor.rest_skipBlanks_append hrest htail
  have hhead := hskip
  rw [h, List.cons_append] at hhead
  have hline := c'.line_skipBlanks
  obtain ⟨hspells, hmiddle⟩ := hlayout (c'.spanTo c'.skipBlanks)
  refine ⟨_, c'.skipBlanks, ?_, hspells hc', by omega, hskip⟩
  rw [lineStart_of_text hhead hd, tabsAt_eq_nil htabs hrest htail, hrest,
    takeWhile_append_tail (htail.head_false (by decide)), hmiddle]
  rfl

theorem reads_rest_nil (h : c.skipBlanks.rest = []) :
    Reads (lineRest levels) c.rest [.newline] levels := by
  intro c' tail hc' htail hrest
  have hskip := Cursor.rest_skipBlanks_append hrest htail
  have hline := c'.line_skipBlanks
  rw [h, List.nil_append] at hskip
  have hplace : 0 < c'.skipBlanks.line := by omega
  cases tail with
  | nil =>
    rw [lineRest_of_nil hskip]
    exact ⟨[_], _, rfl, spells_single hplace, .inl ⟨rfl, c'.skipBlanks, hplace, rfl⟩⟩
  | cons d rest =>
    obtain rfl := htail d rfl
    rw [lineRest_of_newline hskip]
    exact ⟨[_], _, rfl, spells_single hplace,
      .inr ⟨rest, rfl, c'.skipBlanks.nextLine, Nat.succ_pos _, by simp [hskip], rfl⟩⟩

theorem reads_rest_newline (h : c.skipBlanks.rest = '\n' :: rest)
    (hnext : Reads (lineStart levels) rest body inner) :
    Reads (lineRest levels) c.rest (.newline :: body) inner := by
  refine hnext.step [.newline] fun c' tail hc' htail hrest => ?_
  have hskip := Cursor.rest_skipBlanks_append hrest htail
  have hline := c'.line_skipBlanks
  rw [h, List.cons_append] at hskip
  have hplace : 0 < c'.skipBlanks.line := by omega
  exact ⟨[_], c'.skipBlanks.nextLine, lineRest_of_newline hskip, spells_single hplace,
    Nat.succ_pos _, by simp [hskip]⟩

theorem reads_rest_text {l : Lexeme} {n : Nat} (h : c.skipBlanks.rest = d :: rest) (hd : d ≠ '\n')
    (hlexeme : lexemeAt c.skipBlanks.rest = (.ok l, n))
    (hnext : Reads (lineRest levels) (c.skipBlanks.rest.drop n) body inner) :
    Reads (lineRest levels) c.rest (l :: body) inner := by
  refine hnext.step [l] fun c' tail hc' htail hrest => ?_
  have hskip := Cursor.rest_skipBlanks_append hrest htail
  have hhead := hskip
  rw [h, List.cons_append] at hhead
  have hline := c'.line_skipBlanks
  have hne : c.skipBlanks.rest ≠ [] := by simp [h]
  have hlexeme' : lexemeAt c'.skipBlanks.rest = (.ok l, n) := by
    rw [hskip, lexemeAt_append_tail hne htail.delimits, hlexeme]
  have hn : n ≤ c.skipBlanks.rest.length := by
    have hle := lexemeAt_le hne
    rwa [hlexeme] at hle
  have hscan : scanToken c'.skipBlanks =
      (.token ⟨l, c'.skipBlanks.spanTo (c'.skipBlanks.advance n)⟩, c'.skipBlanks.advance n) := by
    simp only [scanToken, hlexeme']
  have hplace : (c'.skipBlanks.spanTo (c'.skipBlanks.advance n)).IsPlace := by
    show 0 < c'.skipBlanks.line
    omega
  refine ⟨[_], c'.skipBlanks.advance n, ?_, spells_single hplace, hplace, ?_⟩
  · rw [lineRest_of_text hhead hd, hscan]
    rfl
  · rw [Cursor.rest_advance, hskip, List.drop_append_of_le_length hn]

/-- A text without complaints consists of lines. -/
theorem lines_read :
    (∀ levels c, Levels levels → Quiet (lineStart levels c) →
      ∃ body inner, Lines levels body inner ∧ body.head? ≠ some .newline ∧
        Reads (lineStart levels) c.rest body inner) ∧
    ∀ levels c, Levels levels → Quiet (lineRest levels c) →
      ∃ body inner, Lines levels body inner ∧ body ≠ [] ∧
        (∀ d rest, c.skipBlanks.rest = d :: rest → d ≠ '\n' → body.head? ≠ some .newline) ∧
        Reads (lineRest levels) c.rest body inner := by
  refine line_induction ?start_nil ?start_newline ?start_text ?within_nil ?within_newline ?within_text
  case start_nil =>
    intro levels c hrest hlevels hquiet
    rw [lineStart_of_nil hrest, quiet_append] at hquiet
    exact ⟨[], levels, ⟨hlevels, by simp, by simp, by simp⟩, by simp,
      reads_start_nil hrest hquiet.1⟩
  case start_newline =>
    intro levels c rest hrest ih hlevels hquiet
    rw [lineStart_of_newline hrest, quiet_append] at hquiet
    obtain ⟨body, inner, hlines, hfirst, hreads⟩ := ih hlevels hquiet.2
    exact ⟨body, inner, hlines, hfirst,
      reads_start_newline hrest hquiet.1 (by simpa [hrest] using hreads)⟩
  case start_text =>
    intro levels c d rest hrest hd ih hlevels hquiet
    rw [lineStart_of_text hrest hd, quiet_append, quiet_append] at hquiet
    obtain ⟨htabs, hlayout, hquiet⟩ := hquiet
    obtain ⟨ls, middle, hmiddle, hls, hcount, hlayout⟩ := layout_lines hlevels hlayout
    rw [(hlayout _).2] at hquiet
    obtain ⟨body, inner, hlines, hbody, hfirst, hreads⟩ := ih middle hmiddle hquiet
    refine ⟨ls ++ body, inner, hlines.layout hbody hls hcount, ?_,
      reads_start_text hrest hd htabs hlayout hreads⟩
    cases ls with
    | nil => exact hfirst d rest (by rw [Cursor.skipBlanks_skipBlanks, hrest]) hd
    | cons l ls =>
      intro hhead
      obtain rfl : l = .newline := by simpa using hhead
      simpa using hls _ List.mem_cons_self
  case within_nil =>
    intro levels c hrest hlevels hquiet
    refine ⟨[.newline], levels, ⟨hlevels, by simp, by simp, by simp⟩, by simp, ?_,
      reads_rest_nil hrest⟩
    intro d rest hrest'
    rw [hrest] at hrest'
    cases hrest'
  case within_newline =>
    intro levels c rest hrest ih hlevels hquiet
    rw [lineRest_of_newline hrest, quiet_cons] at hquiet
    obtain ⟨body, inner, hlines, -, hreads⟩ := ih hlevels hquiet.2
    refine ⟨.newline :: body, inner, hlines.newline, by simp, ?_,
      reads_rest_newline hrest (by simpa [hrest] using hreads)⟩
    intro d rest' hrest' hd
    rw [hrest] at hrest'
    exact absurd (List.cons.inj hrest').1.symm hd
  case within_text =>
    intro levels c d rest hrest hd ih hlevels hquiet
    rw [lineRest_of_text hrest hd, quiet_cons] at hquiet
    obtain ⟨body, inner, hlines, hbody, -, hreads⟩ := ih hlevels hquiet.2
    rw [scanToken_snd, Cursor.rest_advance] at hreads
    rcases hlexeme : lexemeAt c.skipBlanks.rest with ⟨result, n⟩
    cases result with
    | error message =>
      have hitem : (scanToken c.skipBlanks).1 =
          .complaint (.error message (c.skipBlanks.spanTo (c.skipBlanks.advance n))) := by
        simp only [scanToken, hlexeme]
      rw [hitem] at hquiet
      exact absurd (List.mem_singleton_self _) (hquiet.1 _)
    | ok l =>
      have hlayout := isLayout_of_lexemeAt hlexeme
      rw [hlexeme] at hreads
      refine ⟨l :: body, inner, hlines.cons hlayout hbody, by simp, fun _ _ _ _ => ?_,
        reads_rest_text hrest hd hlexeme hreads⟩
      rintro hhead
      obtain rfl : l = .newline := by simpa using hhead
      cases hlayout

/-! ## Whole texts -/

/-- What is read from a place does not depend on the place. -/
theorem Reads.of_end (h : Reads read chars body inner) {c : Cursor} (hc : 0 < c.line)
    (hrest : c.rest = chars) : Spells (read c) (body ++ closers inner ++ [.eof]) := by
  obtain ⟨front, ending, hread, hfront, hends⟩ := h c [] hc (by simp [EndOfLine]) (by simp [hrest])
  rw [hread, List.append_assoc]
  refine hfront.append ?_
  rcases hends with ⟨-, c', hc', rfl⟩ | ⟨rest, hrest, -⟩
  · exact spells_closing hc'
  · cases hrest

/-- The text at the cursor can follow lines that leave blocks open: then it closes them first. -/
def ClosesAll (c : Cursor) : Prop :=
  Quiet (lineStart [0] c) → 0 < c.line → ∀ ls, Spells (lineStart [0] c) ls →
    ls.head? ≠ some .indent → ∀ outer (c' : Cursor), Levels outer → 0 < c'.line →
      c'.rest = c.rest → Spells (lineStart outer c') (closers outer ++ ls)

/-- Items spell one list of lexemes. -/
theorem Spells.unique {items : List Item} {ls ls' : List Lexeme} (h : Spells items ls)
    (h' : Spells items ls') : ls = ls' := by
  obtain ⟨ts, rfl, rfl, -⟩ := h
  obtain ⟨ts', heq, rfl, -⟩ := h'
  have hinjective : Function.Injective Item.token := fun _ _ h => Item.token.inj h
  rw [hinjective.list_map heq]

/-- A text whose first line has no indentation can follow lines that leave blocks open. -/
theorem closesAll (c : Cursor) : ClosesAll c := by
  have h : (∀ levels c, levels = [0] → ClosesAll c) ∧ ∀ (_ : List Nat) (_ : Cursor), True := by
    refine line_induction ?start_nil ?start_newline ?start_text (fun _ _ _ => trivial)
      (fun _ _ _ _ _ => trivial) (fun _ _ _ _ _ _ _ => trivial)
    case start_nil =>
      rintro _ c hrest rfl hquiet hc ls hls hindent outer c' houter hc' hsame
      rw [lineStart_of_nil hrest] at hquiet hls
      have htabs := (quiet_append.1 hquiet).1
      rw [tabsAt_of_same htabs rfl, List.nil_append] at hls
      obtain rfl := hls.unique (spells_closing (c.line_skipBlanks ▸ hc))
      have hskip := Cursor.rest_skipBlanks_same hsame
      rw [lineStart_of_nil (hskip.trans hrest), tabsAt_of_same htabs hsame]
      exact spells_closing (c'.line_skipBlanks ▸ hc')
    case start_newline =>
      rintro _ c rest hrest ih rfl hquiet hc ls hls hindent outer c' houter hc' hsame
      rw [lineStart_of_newline hrest] at hquiet hls
      have htabs := (quiet_append.1 hquiet).1
      rw [tabsAt_of_same htabs rfl, List.nil_append] at hls
      have hskip := Cursor.rest_skipBlanks_same hsame
      rw [lineStart_of_newline (hskip.trans hrest), tabsAt_of_same htabs hsame]
      exact ih rfl (quiet_append.1 hquiet).2 (Nat.succ_pos _) ls hls hindent outer _ houter
        (Nat.succ_pos _) (by simp [hskip])
    case start_text =>
      rintro _ c d rest hrest hd - rfl hquiet hc ls hls hindent outer c' houter hc' hsame
      have hskip := Cursor.rest_skipBlanks_same hsame
      have hline := c'.line_skipBlanks
      rw [lineStart_of_text hrest hd] at hquiet hls
      obtain ⟨htabs, -, hquiet⟩ := quiet_append.1 hquiet |>.imp_right quiet_append.1
      rw [tabsAt_of_same htabs rfl, List.nil_append] at hls
      rw [lineStart_of_text (hskip.trans hrest) hd, tabsAt_of_same htabs hsame, hsame]
      cases hwidth : indentWidth (c.rest.takeWhile isBlank) with
      | zero =>
        rw [hwidth] at hls hquiet
        have hplace : (c'.spanTo c'.skipBlanks).IsPlace := hc'
        obtain ⟨hclose, hinner⟩ := layout_outermost houter hplace
        obtain ⟨body, inner, -, -, -, hreads⟩ := lines_read.2 [0] c.skipBlanks levels_start hquiet
        obtain rfl := hls.unique (hreads.of_end (c.line_skipBlanks ▸ hc) rfl)
        rw [hinner]
        exact hclose.append (hreads.of_end (by omega) hskip)
      | succ width =>
        rw [hwidth] at hls
        obtain ⟨ts, hts, rfl, -⟩ := hls
        cases ts with
        | nil => cases hts
        | cons t ts =>
          obtain ⟨ht, -⟩ := List.cons.inj hts
          exact absurd (by rw [← Item.token.inj ht]; rfl) hindent
  exact h.1 [0] c rfl

end

/-! ## Whole texts -/

section

open TokenStream (ofTokens)

variable {items : List Item} {ls : List Lexeme} {text : String}

theorem quiet_of_complaints (h : (scan text).complaints = []) : Quiet (scanItems text) := by
  intro d hmem
  have hcomplaint : d ∈ (scan text).complaints := List.mem_filterMap.2 ⟨_, hmem, rfl⟩
  rw [h] at hcomplaint
  cases hcomplaint

theorem Spells.complaints (h : Spells items ls) : items.filterMap Item.complaint? = [] := by
  obtain ⟨ts, rfl, -⟩ := h
  induction ts with
  | nil => rfl
  | cons t ts ih => simp [Item.complaint?]

/-- The token stream of items that end with the end of the text. -/
theorem Spells.stream (h : Spells items (ls ++ [.eof])) (hls : .eof ∉ ls) :
    (ofTokens (items.filterMap Item.token?)).lexemes = ls ∧
      (ofTokens (items.filterMap Item.token?)).Placed ∧
      ∀ t ∈ (ofTokens (items.filterMap Item.token?)).rest, t.lexeme ≠ .eof := by
  obtain ⟨ts, rfl, hts, hplaced⟩ := h
  have htokens : (ts.map Item.token).filterMap Item.token? = ts := by
    rw [List.filterMap_map]
    exact List.filterMap_some
  obtain ⟨front, back, rfl, hfront, hback⟩ := List.map_eq_append_iff.1 hts
  obtain ⟨last, rest, rfl, hlast, hrest⟩ := List.map_eq_cons_iff.1 hback
  obtain rfl := List.map_eq_nil_iff.1 hrest
  have hpos : ∀ t ∈ front, t.lexeme ≠ .eof := by
    rintro t ht heq
    exact hls (hfront ▸ heq ▸ List.mem_map_of_mem ht)
  have htake : (front ++ [last]).takeWhile (·.lexeme ≠ .eof) = front := by
    rw [List.takeWhile_append_of_pos (by simpa using hpos),
      List.takeWhile_cons_of_neg (by simp [hlast]), List.append_nil]
  have hfind : (front ++ [last]).find? (·.lexeme = .eof) = some last := by
    rw [List.find?_append, List.find?_eq_none.2 (by simpa using hpos)]
    simp [hlast]
  rw [htokens]
  have hrest : (ofTokens (front ++ [last])).rest = front := htake
  refine ⟨by rw [TokenStream.lexemes, hrest, hfront], ⟨?_, by simp [ofTokens], ?_⟩, ?_⟩
  · show (((front ++ [last]).find? (·.lexeme = .eof)).map Token.span |>.getD Span.none).IsPlace
    rw [hfind]
    exact hplaced last (by simp)
  · rw [hrest]
    exact fun t ht => hplaced t (by simp [ht])
  · rw [hrest]
    exact hpos

/-- A text without complaints consists of lines, which leave some blocks open at its end. -/
theorem scan_lines (h : (scan text).complaints = []) :
    ∃ body inner, Lines [0] body inner ∧ body.head? ≠ some .newline ∧
      Reads (lineStart [0]) text.toList body inner :=
  lines_read.1 [0] (Cursor.ofText text) levels_start (quiet_of_complaints h)

theorem Lines.unended_closers {levels inner : List Nat} {body : List Lexeme}
    (h : Lines levels body inner) : .eof ∉ body ++ closers inner := by
  rw [List.mem_append, not_or]
  refine ⟨h.unended, fun hmem => ?_⟩
  cases List.eq_of_mem_replicate hmem

/-- The lexemes of a text without complaints, wherever it stands: those of its lines, and the ends of
the blocks that they leave open. -/
theorem spells_text {body : List Lexeme} {inner : List Nat}
    (hreads : Reads (lineStart [0]) text.toList body inner) :
    Spells (scanItems text) (body ++ closers inner ++ [.eof]) :=
  hreads.of_end (c := Cursor.ofText text) Nat.one_pos rfl

/-- The tokens of a text without complaints are those of a whole text. -/
theorem scan_whole (h : (scan text).complaints = []) : (ofTokens (scan text).tokens).Whole := by
  obtain ⟨body, inner, hlines, hfirst, hreads⟩ := scan_lines h
  obtain ⟨hlexemes, hplaced, hunended⟩ := (spells_text hreads).stream hlines.unended_closers
  have hlexemes : (ofTokens (scan text).tokens).lexemes = body ++ closers inner := hlexemes
  have hpos := hlines.levelled.length_pos
  refine ⟨rfl, rfl, hplaced, fun t ht => ?_, hunended, ?_, ?_⟩
  · have hlast : t.lexeme ∈ (ofTokens (scan text).tokens).lexemes.getLast? := by
      rw [TokenStream.lexemes, List.getLast?_map, Option.mem_def.1 ht]
      rfl
    rw [hlexemes, List.getLast?_append] at hlast
    cases hclosers : (closers inner).getLast? with
    | none =>
      rw [hclosers] at hlast
      exact .inl (hlines.complete _ hlast)
    | some l =>
      rw [hclosers] at hlast
      obtain rfl : l = t.lexeme := by simpa using hlast
      exact .inr (List.eq_of_mem_replicate (List.mem_of_mem_getLast? hclosers))
  · have hbalanced := hlines.balanced
    unfold TokenStream.Level
    rw [hlexemes, List.count_append, List.count_append, closers, List.count_replicate_self,
      List.count_replicate, if_neg (by decide)]
    simp only [List.length_cons, List.length_nil] at hbalanced
    omega
  · intro hnewline
    have hhead : (body ++ closers inner).head? = some .newline := by
      rw [← hlexemes, ← hnewline]
      cases hrest : (ofTokens (scan text).tokens).rest with
      | nil => simp [TokenStream.current, hrest] at hnewline
      | cons t rest => simp [TokenStream.lexemes, TokenStream.current, hrest]
    rw [List.head?_append] at hhead
    cases hbody : body.head? with
    | some l =>
      rw [hbody] at hhead
      exact hfirst (hbody.trans hhead)
    | none =>
      rw [hbody] at hhead
      have hmem := List.mem_of_mem_head? (Option.mem_def.2 hhead)
      cases List.eq_of_mem_replicate hmem

/-- A text whose first line has no indentation can follow another text on the next line. -/
theorem scan_append {first second : String} (hfirst : (scan first).complaints = [])
    (hsecond : (scan second).complaints = [])
    (hindent : (ofTokens (scan second).tokens).lexemes.head? ≠ some .indent) :
    (scan (first ++ "\n" ++ second)).complaints = [] ∧
      (ofTokens (scan (first ++ "\n" ++ second)).tokens).lexemes =
        (ofTokens (scan first).tokens).lexemes ++ (ofTokens (scan second).tokens).lexemes := by
  obtain ⟨body, inner, hlines, -, hreads⟩ := scan_lines hfirst
  obtain ⟨body', inner', hlines', -, hreads'⟩ := scan_lines hsecond
  have hstream := (spells_text hreads).stream hlines.unended_closers
  have hstream' := (spells_text hreads').stream hlines'.unended_closers
  have hlexemes : (ofTokens (scan first).tokens).lexemes = body ++ closers inner := hstream.1
  have hlexemes' : (ofTokens (scan second).tokens).lexemes = body' ++ closers inner' := hstream'.1
  obtain ⟨front, ending, hread, hfront, hends⟩ := hreads (Cursor.ofText (first ++ "\n" ++ second))
    ('\n' :: second.toList) Nat.one_pos (by simp [EndOfLine]) (by simp [Cursor.ofText])
  rcases hends with ⟨hnil, -⟩ | ⟨rest, hrest, c, hc, hchars, rfl⟩
  · cases hnil
  obtain rfl := (List.cons.inj hrest).2
  have hnext : Spells (lineStart inner c) (closers inner ++ (body' ++ closers inner' ++ [.eof])) :=
    closesAll (Cursor.ofText second) (quiet_of_complaints hsecond) Nat.one_pos _
      (spells_text hreads') (by
        intro hhead
        refine hindent ?_
        rw [hlexemes']
        cases hlist : body' ++ closers inner' with
        | nil =>
          rw [hlist] at hhead
          simp at hhead
        | cons l ls =>
          rw [hlist] at hhead
          simpa using hhead) inner c hlines.levelled hc hchars
  have hspells := hfront.append hnext
  rw [← hread] at hspells
  have hall : body ++ (closers inner ++ (body' ++ closers inner' ++ [Lexeme.eof])) =
      (body ++ closers inner ++ (body' ++ closers inner')) ++ [.eof] := by
    simp only [List.append_assoc]
  rw [hall] at hspells
  refine ⟨hspells.complaints, ?_⟩
  rw [hlexemes, hlexemes']
  refine (hspells.stream ?_).1
  rw [List.mem_append, not_or]
  exact ⟨hlines.unended_closers, hlines'.unended_closers⟩

end

end Abacus
