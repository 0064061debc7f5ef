import Mathlib.Data.List.Chain
import Abacus.Proofs.Source.LineByLine

/-!
# Layout tokens are well bracketed

Indentation is read as beginnings and ends of blocks. Whatever the text is, the beginnings and ends
stand where lines start, every line that says something has one end, and there are as many ends of
blocks as beginnings, but for the levels that were made up for lines whose own level was never opened.
In a text without complaints the blocks are those that the widths of the lines show.

* `Ordered` — open levels go up from 0, and reading a line keeps them so;
* `readLine_text`, `layoutLexemes_cases` — what a line gives;
* `isChain_readLines`, `count_readLines` — what comes after what, and how often, by induction on the
  lines;
* `Lined.openAt` — how many blocks are open at a line;
* `Bracketed`, `scan_bracketed` — all of it about the tokens of a text.
-/

namespace Abacus

/-! ## Lines -/

/-- The line says something: it is not only blanks and a comment. -/
def HasText (line : List Char) : Prop := ¬ NoText (line.dropWhile isBlank)

instance (line : List Char) : Decidable (HasText line) := inferInstanceAs (Decidable (¬ _))

/-- How wide the line is indented. -/
def lineWidth (line : List Char) : Nat := indentWidth (line.takeWhile isBlank)

/-- The lexemes among the items. -/
def lexemesIn (items : List Item) : List Lexeme := items.filterMap Item.lexeme?

/-- The lexemes for a change of indentation. -/
def layoutLexemes (levels : List Nat) (width : Nat) : List Lexeme :=
  lexemesIn (layout levels width Span.none).1

/-- The complaint about a line whose level was never opened. -/
def Item.isInconsistent (item : Item) : Bool :=
  item.complaint?.any (·.message = "inconsistent indentation")

/-- The open levels after the lines. -/
def levelsAfter (levels : List Nat) (lines : List (List Char)) : List Nat :=
  lines.foldl (fun levels line => (readLine levels line).2) levels

/-- Open levels, innermost first: they go up from 0. -/
structure Ordered (levels : List Nat) : Prop where
  sorted : levels.Pairwise (· > ·)
  outermost : levels.getLast? = some 0

section

variable {levels : List Nat} {width : Nat} {line : List Char} {lines : List (List Char)}
  {items items' : List Item} {l : Lexeme}

theorem lexemesIn_append : lexemesIn (items ++ items') = lexemesIn items ++ lexemesIn items' :=
  List.filterMap_append

/-- What a change of indentation gives: the beginning of a block, or the ends of the deeper ones, and
a complaint if the level of the line was never opened. -/
theorem layoutLexemes_cases (levels : List Nat) (width : Nat) :
    (levels.headD 0 < width ∧ layoutLexemes levels width = [.indent] ∧
        (layout levels width Span.none).1.countP Item.isInconsistent = 0 ∧
        (layout levels width Span.none).2 = width :: levels) ∨
      (width ≤ levels.headD 0 ∧
        layoutLexemes levels width =
          List.replicate (levels.takeWhile (width < ·)).length .dedent ∧
        (((levels.dropWhile (width < ·)).head? = some width ∧
            (layout levels width Span.none).1.countP Item.isInconsistent = 0 ∧
            (layout levels width Span.none).2 = levels.dropWhile (width < ·)) ∨
          ((levels.dropWhile (width < ·)).head? ≠ some width ∧
            (layout levels width Span.none).1.countP Item.isInconsistent = 1 ∧
            (layout levels width Span.none).2 = width :: levels.dropWhile (width < ·)))) := by
  have hlexemes : ∀ closed : List Nat,
      (closed.map fun _ => Item.token ⟨.dedent, Span.none⟩).filterMap Item.lexeme? =
        List.replicate closed.length .dedent := by
    intro closed
    induction closed with
    | nil => rfl
    | cons level closed ih => simpa [Item.lexeme?, Item.token?, List.replicate_succ] using ih
  have hquiet : ∀ closed : List Nat,
      (closed.map fun _ => Item.token ⟨.dedent, Span.none⟩).countP Item.isInconsistent = 0 := by
    intro closed
    rw [List.countP_eq_zero]
    simp only [List.mem_map]
    rintro _ ⟨_, -, rfl⟩
    decide
  unfold layoutLexemes lexemesIn layout
  by_cases hdeeper : levels.headD 0 < width
  · rw [if_pos hdeeper]
    exact .inl ⟨hdeeper, rfl, rfl, rfl⟩
  · rw [if_neg hdeeper]
    refine .inr ⟨Nat.le_of_not_lt hdeeper, ?_⟩
    dsimp only
    by_cases hopen : (levels.dropWhile (width < ·)).head? = some width
    · rw [if_pos hopen]
      exact ⟨hlexemes _, .inl ⟨hopen, hquiet _, rfl⟩⟩
    · rw [if_neg hopen]
      refine ⟨?_, .inr ⟨hopen, ?_, rfl⟩⟩
      · rw [List.filterMap_append, hlexemes]
        exact List.append_nil _
      · rw [List.countP_append, hquiet]
        decide

theorem mem_layoutLexemes (h : l ∈ layoutLexemes levels width) : l = .indent ∨ l = .dedent := by
  obtain ⟨-, hlexemes, -⟩ | ⟨-, hlexemes, -⟩ := layoutLexemes_cases levels width
  · rw [hlexemes] at h
    exact .inl (List.mem_singleton.1 h)
  · rw [hlexemes] at h
    exact .inr (List.eq_of_mem_replicate h)

/-- The pieces of a line are no layout. -/
theorem isLayout_of_mem_pieces (h : l ∈ lexemesIn (pieces line)) : l.isLayout = false := by
  fun_induction pieces line with
  | case1 line text hno => cases h
  | case2 line text htext ih =>
    rcases hlexeme : lexemeAt text with ⟨result, n⟩
    rw [hlexeme] at h ih
    cases result with
    | error message => exact ih (by simpa [lexemesIn, Item.ofResult, Item.lexeme?, Item.token?] using h)
    | ok l' =>
      obtain rfl | hmem : l = l' ∨ l ∈ lexemesIn (pieces (text.drop n)) := by
        simpa [lexemesIn, Item.ofResult, Item.of, Item.lexeme?, Item.token?] using h
      · exact isLayout_of_lexemeAt hlexeme
      · exact ih hmem

theorem lexemeAt_message {chars : List Char} {message : String} {n : Nat}
    (h : lexemeAt chars = (.error message, n)) :
    message = "invalid token" ∨ message = "integer literal out of range" := by
  unfold lexemeAt at h
  split at h
  · cases h
    exact .inl rfl
  · split at h
    · cases h
    · split at h
      · split at h
        · cases h
        · split at h
          · cases h
          · cases h
            exact .inr rfl
      · split at h
        · cases h
        · split at h
          · cases h
          · cases h
            exact .inl rfl

/-- The pieces of a line have nothing to do with its indentation. -/
theorem countP_pieces (line : List Char) : (pieces line).countP Item.isInconsistent = 0 := by
  fun_induction pieces line with
  | case1 line text hno => rfl
  | case2 line text htext ih =>
    rw [List.countP_cons, ih]
    rcases hlexeme : lexemeAt text with ⟨result, n⟩
    cases result with
    | ok l => rfl
    | error message =>
      obtain rfl | rfl := lexemeAt_message hlexeme <;> rfl

theorem countP_tabsIn (blanks : List Char) : (tabsIn blanks).countP Item.isInconsistent = 0 := by
  rw [List.countP_eq_zero]
  simp only [tabsIn, List.mem_map]
  rintro _ ⟨_, -, rfl⟩
  decide

theorem lexemesIn_tabsIn (blanks : List Char) : lexemesIn (tabsIn blanks) = [] := by
  refine List.filterMap_eq_nil_iff.2 ?_
  simp only [tabsIn, List.mem_map]
  rintro _ ⟨_, -, rfl⟩
  rfl

/-- A line that says something gives the change of indentation, its pieces, and one end. -/
theorem readLine_text (levels : List Nat) (h : HasText line) :
    lexemesIn (readLine levels line).1 =
        layoutLexemes levels (lineWidth line) ++ (lexemesIn (pieces line) ++ [.newline]) ∧
      (readLine levels line).1.countP Item.isInconsistent =
        (layout levels (lineWidth line) Span.none).1.countP Item.isInconsistent ∧
      (readLine levels line).2 = (layout levels (lineWidth line) Span.none).2 := by
  have hend : Item.isInconsistent (.of .newline) = false := by decide
  unfold readLine
  rw [if_neg h]
  refine ⟨?_, ?_, rfl⟩
  · rw [lexemesIn_append, lexemesIn_append, lexemesIn_append, lexemesIn_tabsIn]
    rfl
  · rw [List.countP_append, List.countP_append, List.countP_append, countP_tabsIn, countP_pieces,
      List.countP_singleton, hend]
    simp [lineWidth]

/-- Any other line gives nothing, and leaves the levels as they are. -/
theorem readLine_noText (levels : List Nat) (h : ¬ HasText line) :
    lexemesIn (readLine levels line).1 = [] ∧
      (readLine levels line).1.countP Item.isInconsistent = 0 ∧
      (readLine levels line).2 = levels := by
  unfold readLine
  rw [if_pos (not_not.1 h)]
  exact ⟨lexemesIn_tabsIn _, countP_tabsIn _, rfl⟩

theorem levelsAfter_cons : levelsAfter levels (line :: lines) =
    levelsAfter (readLine levels line).2 lines := rfl

theorem lexemesIn_readLines_cons : lexemesIn (readLines levels (line :: lines)) =
    lexemesIn (readLine levels line).1 ++ lexemesIn (readLines (readLine levels line).2 lines) := by
  rw [readLines, lexemesIn_append]

/-- At the end of a text the open blocks are closed. -/
theorem lexemesIn_readLines_nil : lexemesIn (readLines levels []) =
    List.replicate (levels.length - 1) .dedent ++ [.eof] := by
  rw [readLines, lexemesIn_append]
  have hclosers : ∀ closed : List Nat, lexemesIn (closed.map fun _ => .of .dedent) =
      List.replicate closed.length .dedent := by
    intro closed
    induction closed with
    | nil => rfl
    | cons level closed ih => simpa [lexemesIn, Item.of, Item.lexeme?, Item.token?,
        List.replicate_succ] using ih
  rw [hclosers, List.length_drop]
  rfl

end

/-! ## What comes after what -/

/-- The second of two lexemes may come directly after the first. -/
def Adjoins (l l' : Lexeme) : Prop :=
  (l' = .indent → l = .newline) ∧ (l' = .dedent → l = .newline ∨ l = .dedent)

section

variable {levels : List Nat} {line : List Char} {lines : List (List Char)} {ls : List Lexeme}

/-- Where no block begins or ends, anything may come after anything. -/
theorem isChain_of_plain (h : ∀ l ∈ ls, l ≠ .indent ∧ l ≠ .dedent) : ls.IsChain Adjoins := by
  have hplain : ∀ l l', l' ≠ .indent ∧ l' ≠ .dedent → Adjoins l l' :=
    fun _ _ h => ⟨fun heq => absurd heq h.1, fun heq => absurd heq h.2⟩
  induction ls with
  | nil => exact .nil
  | cons l ls ih =>
    have hrest := ih fun l hl => h l (List.mem_cons_of_mem _ hl)
    cases ls with
    | nil => exact .singleton _
    | cons l' ls => exact .cons_cons (hplain _ _ (h l' (by simp))) hrest

/-- At the start of a line blocks begin or end. -/
theorem isChain_layoutLexemes (levels : List Nat) (width : Nat) :
    (Lexeme.newline :: layoutLexemes levels width).IsChain Adjoins := by
  have hdedents : ∀ n, ∀ l, l = .newline ∨ l = .dedent →
      (l :: List.replicate n Lexeme.dedent).IsChain Adjoins := by
    intro n
    induction n with
    | zero => exact fun l _ => .singleton _
    | succ n ih => exact fun l hl => .cons_cons ⟨nofun, fun _ => hl⟩ (ih _ (.inr rfl))
  obtain ⟨-, hlexemes, -⟩ | ⟨-, hlexemes, -⟩ := layoutLexemes_cases levels width
  · rw [hlexemes]
    exact .cons_cons ⟨fun _ => rfl, nofun⟩ (.singleton _)
  · rw [hlexemes]
    exact hdedents _ _ (.inl rfl)

/-- The rest of a line is plain. -/
theorem plain_of_mem_rest {l : Lexeme} (h : l ∈ lexemesIn (pieces line) ++ [.newline]) :
    l ≠ .indent ∧ l ≠ .dedent ∧ l ≠ .eof := by
  obtain hmem | hmem := List.mem_append.1 h
  · have hlayout := isLayout_of_mem_pieces hmem
    refine ⟨?_, ?_, ?_⟩ <;> rintro rfl <;> cases hlayout
  · obtain rfl := List.mem_singleton.1 hmem
    exact ⟨nofun, nofun, nofun⟩

/-- After the end of a line, lines go on in order. -/
theorem isChain_readLines (levels : List Nat) (lines : List (List Char)) :
    (Lexeme.newline :: lexemesIn (readLines levels lines)).IsChain Adjoins := by
  induction lines generalizing levels with
  | nil =>
    -- The ends of the blocks that are left open are those of a line without indentation.
    rw [lexemesIn_readLines_nil, ← List.cons_append, List.isChain_append]
    refine ⟨?_, .singleton _, ?_⟩
    · have hdedents := isChain_layoutLexemes (List.replicate (levels.length - 1) 1 ++ [0]) 0
      have hlexemes : layoutLexemes (List.replicate (levels.length - 1) 1 ++ [0]) 0 =
          List.replicate (levels.length - 1) .dedent := by
        obtain ⟨hless, -⟩ | ⟨-, hlexemes, -⟩ :=
          layoutLexemes_cases (List.replicate (levels.length - 1) 1 ++ [0]) 0
        · exact absurd hless (Nat.not_lt_zero _)
        · rw [hlexemes, List.takeWhile_append_of_pos (by
            intro width hwidth
            rw [List.eq_of_mem_replicate hwidth]
            decide)]
          simp
      rwa [hlexemes] at hdedents
    · rintro l - _ ⟨⟩
      exact ⟨nofun, nofun⟩
  | cons line lines ih =>
    rw [lexemesIn_readLines_cons]
    by_cases htext : HasText line
    · have hline := (readLine_text levels htext).1
      have hnext := ih (readLine levels line).2
      rw [hline, ← List.cons_append, List.isChain_append, ← List.cons_append, List.isChain_append]
      refine ⟨⟨isChain_layoutLexemes _ _, isChain_of_plain fun l hl => ?_, ?_⟩, hnext.tail, ?_⟩
      · exact ⟨(plain_of_mem_rest hl).1, (plain_of_mem_rest hl).2.1⟩
      · intro l _ l' hl'
        obtain ⟨hindent, hdedent, -⟩ := plain_of_mem_rest (List.mem_of_mem_head? hl')
        exact ⟨fun heq => absurd heq hindent, fun heq => absurd heq hdedent⟩
      · intro l hl l' hl'
        rw [List.getLast?_append_of_ne_nil _ (by simp), List.getLast?_concat] at hl
        obtain rfl : .newline = l := Option.some.inj hl
        exact (List.isChain_cons.1 hnext).1 l' hl'
    · obtain ⟨hline, -, hlevels⟩ := readLine_noText levels htext
      rw [hline, hlevels]
      exact ih levels

/-- A text does not start with the end of a block. -/
theorem head?_readLines (lines : List (List Char)) :
    (lexemesIn (readLines [0] lines)).head? ≠ some .dedent := by
  induction lines with
  | nil => simp [lexemesIn_readLines_nil]
  | cons line lines ih =>
    rw [lexemesIn_readLines_cons]
    by_cases htext : HasText line
    · have hno : .dedent ∉ layoutLexemes [0] (lineWidth line) := by
        obtain ⟨-, hlexemes, -⟩ | ⟨-, hlexemes, -⟩ := layoutLexemes_cases [0] (lineWidth line)
        · simp [hlexemes]
        · simp [hlexemes]
      intro hhead
      rw [(readLine_text _ htext).1, List.head?_append_of_ne_nil _ (by simp)] at hhead
      obtain hmem | hmem := List.mem_append.1 (List.mem_of_mem_head? (Option.mem_def.2 hhead))
      · exact hno hmem
      · exact (plain_of_mem_rest hmem).2.1 rfl
    · obtain ⟨hline, -, hlevels⟩ := readLine_noText [0] htext
      rw [hline, hlevels]
      exact ih

/-- The end of the text comes once, and last. -/
theorem readLines_ends (levels : List Nat) (lines : List (List Char)) :
    ∃ front, lexemesIn (readLines levels lines) = front ++ [.eof] ∧ .eof ∉ front := by
  induction lines generalizing levels with
  | nil =>
    refine ⟨_, lexemesIn_readLines_nil, fun hmem => ?_⟩
    cases List.eq_of_mem_replicate hmem
  | cons line lines ih =>
    obtain ⟨front, hfront, heof⟩ := ih (readLine levels line).2
    refine ⟨lexemesIn (readLine levels line).1 ++ front, ?_, ?_⟩
    · rw [lexemesIn_readLines_cons, hfront, List.append_assoc]
    · rw [List.mem_append, not_or]
      refine ⟨fun hmem => ?_, heof⟩
      by_cases htext : HasText line
      · rw [(readLine_text _ htext).1] at hmem
        obtain hmem | hmem := List.mem_append.1 hmem
        · simpa using mem_layoutLexemes hmem
        · exact (plain_of_mem_rest hmem).2.2 rfl
      · simp [(readLine_noText _ htext).1] at hmem

end

/-! ## How often -/

section

variable {levels : List Nat} {width bound : Nat} {line : List Char} {lines : List (List Char)}

theorem ordered_start : Ordered [0] := ⟨List.pairwise_singleton _ _, rfl⟩

theorem Ordered.length_pos (h : Ordered levels) : 0 < levels.length := by
  refine List.length_pos_iff.2 ?_
  rintro rfl
  cases h.outermost

theorem Ordered.dropWhile (h : Ordered levels) (width : Nat) :
    Ordered (levels.dropWhile (width < ·)) where
  sorted := h.sorted.sublist (List.dropWhile_suffix _).sublist
  outermost := by
    obtain ⟨hsorted, houtermost⟩ := h
    induction levels with
    | nil => cases houtermost
    | cons level levels ih =>
      rw [List.dropWhile_cons]
      split
      · next hless =>
        cases levels with
        | nil =>
          obtain rfl : level = 0 := by simpa using houtermost
          simp at hless
        | cons => exact ih (List.pairwise_cons.1 hsorted).2 (by simpa using houtermost)
      · exact houtermost

/-- A level that is deeper than all that are open. -/
theorem Ordered.cons (h : Ordered levels) (hwidth : ∀ level ∈ levels, level < width) :
    Ordered (width :: levels) where
  sorted := List.pairwise_cons.2 ⟨hwidth, h.sorted⟩
  outermost := by
    rw [List.getLast?_cons_of_ne_nil (List.length_pos_iff.1 h.length_pos)]
    exact h.outermost

/-- No open level is deeper than the innermost one. -/
theorem Ordered.le_headD (h : Ordered levels) : ∀ level ∈ levels, level ≤ levels.headD 0 := by
  cases levels with
  | nil => simp
  | cons first levels =>
    intro level hlevel
    obtain rfl | hmem := List.mem_cons.1 hlevel
    · exact Nat.le_refl _
    · exact Nat.le_of_lt ((List.pairwise_cons.1 h.sorted).1 level hmem)

/-- The levels up to a width are those that are left when the deeper ones are closed. -/
theorem Ordered.dropWhile_eq (h : Ordered levels) (width : Nat) :
    levels.dropWhile (width < ·) = levels.filter (· ≤ width) := by
  have hsorted := h.sorted
  clear h
  induction levels with
  | nil => rfl
  | cons level levels ih =>
    obtain ⟨hless, hsorted⟩ := List.pairwise_cons.1 hsorted
    rw [List.dropWhile_cons, List.filter_cons]
    by_cases hwidth : width < level
    · rw [if_pos (by simpa using hwidth), if_neg (by simpa using hwidth)]
      exact ih hsorted
    · have hall : ∀ level' ∈ levels, level' ≤ width := fun level' hlevel' =>
        Nat.le_of_lt (Nat.lt_of_lt_of_le (hless level' hlevel') (Nat.le_of_not_lt hwidth))
      rw [if_neg (by simpa using hwidth), if_pos (by simpa using hwidth),
        List.filter_eq_self.2 (by simpa using hall)]

/-- A line keeps the levels in order, and it begins and ends as many blocks as the levels show. -/
theorem ordered_layout (h : Ordered levels) (width : Nat) :
    Ordered (layout levels width Span.none).2 ∧
      (layoutLexemes levels width).count .dedent + (layout levels width Span.none).2.length =
        (layoutLexemes levels width).count .indent + levels.length +
          (layout levels width Span.none).1.countP Item.isInconsistent := by
  have hlength := congrArg List.length
    (List.takeWhile_append_dropWhile (p := (width < ·)) (l := levels))
  rw [List.length_append] at hlength
  have hkept := h.dropWhile width
  obtain ⟨hless, hlexemes, hcount, hlevels⟩ | ⟨-, hlexemes, ⟨-, hcount, hlevels⟩ | ⟨hhead, hcount, hlevels⟩⟩ :=
    layoutLexemes_cases levels width <;> rw [hlexemes, hcount, hlevels]
  · refine ⟨h.cons fun level hlevel => Nat.lt_of_le_of_lt (h.le_headD level hlevel) hless, ?_⟩
    simp
    omega
  · refine ⟨hkept, ?_⟩
    rw [List.count_replicate_self, List.count_replicate, if_neg (by decide)]
    omega
  · refine ⟨hkept.cons fun level hlevel => ?_, ?_⟩
    · -- The innermost level that is kept is not the width, so all are less.
      have hle : level ≤ width := by
        rw [h.dropWhile_eq] at hlevel
        simpa using (List.mem_filter.1 hlevel).2
      refine Nat.lt_of_le_of_ne hle ?_
      rintro rfl
      obtain ⟨first, rest, hcons⟩ := List.exists_cons_of_ne_nil (List.ne_nil_of_mem hlevel)
      have hfirst := hkept.le_headD level hlevel
      have hle' : first ≤ level := by
        have hmem : first ∈ levels.dropWhile (level < ·) := by simp [hcons]
        rw [h.dropWhile_eq] at hmem
        simpa using (List.mem_filter.1 hmem).2
      rw [hcons] at hfirst hhead
      exact hhead (congrArg some (Nat.le_antisymm hle' hfirst))
    · rw [List.count_replicate_self, List.count_replicate, if_neg (by decide), List.length_cons]
      omega

/-- All beginnings and ends of blocks on a line are those of its change of indentation. -/
theorem count_readLine {l : Lexeme} (htext : HasText line) (hl : l = .indent ∨ l = .dedent) :
    (lexemesIn (readLine levels line).1).count l = (layoutLexemes levels (lineWidth line)).count l := by
  rw [(readLine_text _ htext).1, List.count_append, Nat.add_eq_left]
  refine List.count_eq_zero.2 fun hmem => ?_
  obtain ⟨hindent, hdedent, -⟩ := plain_of_mem_rest hmem
  exact hl.elim hindent hdedent

/-- The same for a whole line. -/
theorem ordered_readLine (h : Ordered levels) (line : List Char) :
    Ordered (readLine levels line).2 ∧
      (lexemesIn (readLine levels line).1).count .dedent + (readLine levels line).2.length =
        (lexemesIn (readLine levels line).1).count .indent + levels.length +
          (readLine levels line).1.countP Item.isInconsistent := by
  by_cases htext : HasText line
  · obtain ⟨-, hcount, hlevels⟩ := readLine_text levels htext
    rw [count_readLine htext (.inl rfl), count_readLine htext (.inr rfl), hcount, hlevels]
    exact ordered_layout h (lineWidth line)
  · obtain ⟨hlexemes, hcount, hlevels⟩ := readLine_noText levels htext
    rw [hlexemes, hcount, hlevels]
    exact ⟨h, by simp⟩

theorem countP_readLines_nil (levels : List Nat) :
    (readLines levels []).countP Item.isInconsistent = 0 := by
  rw [readLines, List.countP_append, List.countP_eq_zero.2 (by
    simp only [List.mem_map]
    rintro _ ⟨_, -, rfl⟩
    decide)]
  decide

/-- In a whole text there are as many ends of blocks as beginnings and made up levels. -/
theorem count_readLines (h : Ordered levels) (lines : List (List Char)) :
    (lexemesIn (readLines levels lines)).count .dedent + 1 =
      (lexemesIn (readLines levels lines)).count .indent + levels.length +
        (readLines levels lines).countP Item.isInconsistent := by
  induction lines generalizing levels with
  | nil =>
    have hpos := h.length_pos
    rw [lexemesIn_readLines_nil, countP_readLines_nil, List.count_append, List.count_append,
      List.count_replicate_self, List.count_replicate, if_neg (by decide)]
    simp
    omega
  | cons line lines ih =>
    obtain ⟨hordered, hline⟩ := ordered_readLine h line
    have hlines := ih hordered
    rw [lexemesIn_readLines_cons, readLines, List.countP_append, List.count_append,
      List.count_append]
    omega

/-- A line begins blocks or ends some, not both. -/
theorem count_readLine_eq_zero (levels : List Nat) (line : List Char) :
    (lexemesIn (readLine levels line).1).count .indent = 0 ∨
      (lexemesIn (readLine levels line).1).count .dedent = 0 := by
  by_cases htext : HasText line
  · rw [count_readLine htext (.inl rfl), count_readLine htext (.inr rfl)]
    obtain ⟨-, hlexemes, -⟩ | ⟨-, hlexemes, -⟩ := layoutLexemes_cases levels (lineWidth line)
    · exact .inr (List.count_eq_zero.2 (by simp [hlexemes]))
    · exact .inl (List.count_eq_zero.2 (by simp [hlexemes]))
  · rw [(readLine_noText _ htext).1]
    exact .inl rfl

/-- Without made up levels, no block is ended that was not begun. -/
theorem prefix_readLines {front : List Lexeme} (h : Ordered levels)
    (hquiet : (readLines levels lines).countP Item.isInconsistent = 0)
    (hfront : front <+: lexemesIn (readLines levels lines)) :
    front.count .dedent + 1 ≤ front.count .indent + levels.length := by
  induction lines generalizing levels front with
  | nil =>
    have hle := hfront.sublist.count_le .dedent
    rw [lexemesIn_readLines_nil, List.count_append, List.count_replicate_self] at hle
    have hpos := h.length_pos
    have hsingle : [Lexeme.eof].count .dedent = 0 := rfl
    omega
  | cons line lines ih =>
    obtain ⟨hordered, hline⟩ := ordered_readLine h line
    rw [readLines, List.countP_append] at hquiet
    rw [lexemesIn_readLines_cons] at hfront
    obtain ⟨tail, hfront⟩ := hfront
    obtain ⟨back, hcut, -⟩ | ⟨back, rfl, hback⟩ := List.append_eq_append_iff.1 hfront
    · -- The front ends inside the line, which begins blocks or ends some.
      have hle := (List.prefix_append front back).sublist.count_le .dedent
      rw [← hcut] at hle
      have hpos := h.length_pos
      have hpos' := hordered.length_pos
      have hzero := count_readLine_eq_zero levels line
      omega
    · have hrest := ih hordered (by omega) ⟨tail, hback.symm⟩
      rw [List.count_append, List.count_append]
      omega

/-! ## Widths -/

/-- A line whose level was opened, or that opens it, leaves its own level and those above it. -/
theorem readLine_snd (h : Ordered levels) (htext : HasText line)
    (hquiet : (readLine levels line).1.countP Item.isInconsistent = 0) :
    (readLine levels line).2 = lineWidth line :: levels.filter (· < lineWidth line) ∧
      (lineWidth line ∈ levels ∨ ∀ level ∈ levels, level < lineWidth line) := by
  obtain ⟨-, hcount, hlevels⟩ := readLine_text levels htext
  rw [hcount] at hquiet
  rw [hlevels]
  obtain ⟨hless, -, -, hinner⟩ | ⟨-, -, ⟨hhead, -, hinner⟩ | ⟨-, hone, -⟩⟩ :=
    layoutLexemes_cases levels (lineWidth line)
  · have hall : ∀ level ∈ levels, level < lineWidth line := fun level hlevel =>
      Nat.lt_of_le_of_lt (h.le_headD level hlevel) hless
    rw [hinner, List.filter_eq_self.2 (by simpa using hall)]
    exact ⟨rfl, .inr hall⟩
  · -- The level is open, and is the innermost one when the deeper ones are closed.
    obtain ⟨rest, hcons⟩ := List.head?_eq_some_iff.1 hhead
    have hsorted := (h.dropWhile (lineWidth line)).sorted
    have hmem : lineWidth line ∈ levels :=
      List.dropWhile_subset (lineWidth line < ·) (by rw [hcons]; exact List.mem_cons_self)
    have hfilter : levels.filter (· < lineWidth line) = rest := by
      have hkept := congrArg (List.filter (· < lineWidth line)) (h.dropWhile_eq (lineWidth line))
      rw [hcons, List.filter_filter, List.filter_cons_of_neg (by simp)] at hkept
      rw [hcons] at hsorted
      rw [List.filter_eq_self.2 (by simpa using (List.pairwise_cons.1 hsorted).1)] at hkept
      rw [hkept]
      exact List.filter_congr fun level _ => by
        rw [Bool.eq_iff_iff]
        simpa using Nat.le_of_lt
    rw [hinner, hcons, hfilter]
    exact ⟨rfl, .inl hmem⟩
  · omega

variable (h : Ordered levels) (hquiet : (readLines levels lines).countP Item.isInconsistent = 0)
  (hwidth : ∀ line ∈ lines, HasText line → bound ≤ lineWidth line)

include h hquiet hwidth

/-- One step of what lines at least as wide as `bound` keep. -/
theorem levels_induction {motive : List Nat → Prop} (hstart : motive levels)
    (hstep : ∀ levels width, motive levels → bound ≤ width →
      (width ∈ levels ∨ ∀ level ∈ levels, level < width) →
      motive (width :: levels.filter (· < width))) :
    motive (levelsAfter levels lines) := by
  induction lines generalizing levels with
  | nil => exact hstart
  | cons line lines ih =>
    rw [readLines, List.countP_append] at hquiet
    have hordered := (ordered_readLine h line).1
    rw [levelsAfter_cons]
    refine ih hordered (by omega) (fun line hline => hwidth line (List.mem_cons_of_mem _ hline)) ?_
    by_cases htext : HasText line
    · obtain ⟨hlevels, hopen⟩ := readLine_snd h htext (by omega)
      rw [hlevels]
      exact hstep _ _ hstart (hwidth line List.mem_cons_self htext) hopen
    · rw [(readLine_noText _ htext).2.2]
      exact hstart

/-- They keep the levels of less width. -/
theorem filter_levelsAfter :
    (levelsAfter levels lines).filter (· < bound) = levels.filter (· < bound) := by
  refine levels_induction (motive := fun inner => inner.filter (· < bound) = levels.filter (· < bound))
    h hquiet hwidth rfl fun inner width hinner hle _ => ?_
  rw [List.filter_cons_of_neg (by simpa using hle), List.filter_filter, ← hinner]
  refine List.filter_congr fun level _ => ?_
  rw [Bool.eq_iff_iff]
  simp
  omega

/-- They keep that level. -/
theorem mem_levelsAfter (hmem : bound ∈ levels) : bound ∈ levelsAfter levels lines := by
  refine levels_induction (motive := (bound ∈ ·)) h hquiet hwidth hmem
    fun inner width hinner hle _ => ?_
  obtain rfl | hless := Nat.eq_or_lt_of_le hle
  · exact List.mem_cons_self
  · exact List.mem_cons_of_mem _ (List.mem_filter.2 ⟨hinner, by simpa using hless⟩)

/-- They do not open it where a deeper one is open. -/
theorem notMem_levelsAfter (hmem : bound ∉ levels) (hdeeper : ∃ level ∈ levels, bound < level) :
    bound ∉ levelsAfter levels lines := by
  refine (levels_induction (motive := fun inner => bound ∉ inner ∧ ∃ level ∈ inner, bound < level)
    h hquiet hwidth ⟨hmem, hdeeper⟩ fun inner width ⟨hmem, level, hlevel, hless⟩ hle hopen => ?_).1
  have hwider : bound < width := by
    refine Nat.lt_of_le_of_ne hle ?_
    rintro rfl
    obtain hopen | hall := hopen
    · exact hmem hopen
    · exact absurd (hall level hlevel) (by omega)
  refine ⟨?_, width, List.mem_cons_self, hwider⟩
  rw [List.mem_cons, not_or]
  exact ⟨Nat.ne_of_lt hwider, fun hfilter => hmem (List.mem_filter.1 hfilter).1⟩

end

/-! ## Tokens of a line -/

/-- The token ends the line `number`. -/
def Token.endsLine (number : Nat) (t : Token) : Bool := t.lexeme = .newline && t.span.line = number

/-- The lexemes in front of the end of the line `number`. -/
def lexemesBefore (tokens : List Token) (number : Nat) : List Lexeme :=
  (tokens.takeWhile (!·.endsLine number)).map Token.lexeme

/-- How many blocks are open on the line `number`: as many as have begun in front of its end less those
that have ended. -/
def openAt (tokens : List Token) (number : Nat) : Nat :=
  (lexemesBefore tokens number).count .indent - (lexemesBefore tokens number).count .dedent

section

variable {number n : Nat} {levels : List Nat} {line : List Char} {lines : List (List Char)}
  {said items : List Item}

/-- The tokens among the items. -/
def tokensIn (items : List Item) : List Token := items.filterMap Item.token?

theorem map_tokensIn (items : List Item) : (tokensIn items).map Token.lexeme = lexemesIn items :=
  List.map_filterMap ..

theorem OnLine.lexemesIn (h : OnLine number said items) : lexemesIn items = lexemesIn said := by
  rw [← h.unplaced, Abacus.lexemesIn, Abacus.lexemesIn, List.filterMap_map]
  exact List.filterMap_congr fun item _ => by cases item <;> rfl

theorem OnLine.tokens (h : OnLine number said items) : ∀ t ∈ tokensIn items, t.span.line = number := by
  intro t ht
  obtain ⟨item, hitem, htoken⟩ := List.mem_filterMap.1 ht
  cases item with
  | token t' =>
    obtain rfl : t' = t := Option.some.inj htoken
    exact h.line _ hitem
  | complaint d => cases htoken

/-- Other lines do not end on the line. -/
theorem OnLine.endsLine_ne (h : OnLine number said items) {number' : Nat} (hne : number' ≠ number) :
    ∀ t ∈ tokensIn items, t.endsLine number' = false := by
  intro t ht
  simp [Token.endsLine, h.tokens t ht, hne.symm]

theorem OnLine.endsLine_eq (h : OnLine number said items) :
    ∀ t ∈ tokensIn items, t.endsLine number = decide (t.lexeme = .newline) := by
  intro t ht
  simp [Token.endsLine, h.tokens t ht]

/-- The ends of lines come on their lines. -/
theorem Lined.endsLine_lt (h : Lined number levels lines items) {number' : Nat}
    (hless : number' < number) : ∀ t ∈ tokensIn items, t.endsLine number' = false := by
  induction h with
  | nil levels c =>
    intro t ht
    have hlexeme : t.lexeme ∈ lexemesIn (closing levels c) :=
      map_tokensIn _ ▸ List.mem_map_of_mem ht
    simp only [lexemesIn, closing, List.mem_filterMap, List.mem_append, List.mem_map,
      List.mem_singleton] at hlexeme
    obtain ⟨_, ⟨_, -, rfl⟩ | rfl, heq⟩ := hlexeme
    · have heq : Lexeme.dedent = t.lexeme := Option.some.inj heq
      simp [Token.endsLine, ← heq]
    · have heq : Lexeme.eof = t.lexeme := Option.some.inj heq
      simp [Token.endsLine, ← heq]
  | cons hfront _ ih =>
    intro t ht
    rw [tokensIn, List.filterMap_append] at ht
    obtain ht | ht := List.mem_append.1 ht
    · exact hfront.endsLine_ne (Nat.ne_of_lt hless) t ht
    · exact ih (Nat.lt_succ_of_lt hless) t ht

/-- Only the end of a line is the end of a line. -/
theorem newline_notMem (levels : List Nat) (line : List Char) :
    Lexeme.newline ∉ layoutLexemes levels (lineWidth line) ++ Abacus.lexemesIn (pieces line) := by
  intro hmem
  obtain hmem | hmem := List.mem_append.1 hmem
  · simpa using mem_layoutLexemes hmem
  · cases isLayout_of_mem_pieces hmem

/-- A line that says something has one end, any other line none. -/
theorem Lined.countP_endsLine (h : Lined number levels lines items) (hline : lines[n]? = some line) :
    (tokensIn items).countP (Token.endsLine (number + n)) = if HasText line then 1 else 0 := by
  induction h generalizing n with
  | nil levels c => cases hline
  | @cons number levels line' lines front items hfront hitems ih =>
    rw [tokensIn, List.filterMap_append, List.countP_append]
    cases n with
    | zero =>
      obtain rfl : line' = line := by simpa using hline
      -- Later lines end later, so all ends are on this line.
      have hlater : (tokensIn items).countP (Token.endsLine number) = 0 :=
        List.countP_eq_zero.2 fun t ht => by
          rw [hitems.endsLine_lt (Nat.lt_succ_self number) t ht]
          exact Bool.false_ne_true
      have hnewlines : (tokensIn front).countP (Token.endsLine number) =
          (Abacus.lexemesIn (readLine levels line').1).count .newline := by
        rw [← hfront.lexemesIn, ← map_tokensIn, List.count, List.countP_map]
        refine List.countP_congr fun t ht => ?_
        rw [hfront.endsLine_eq t ht]
        simp
      rw [Nat.add_zero]
      refine (congrArg₂ (· + ·) hnewlines hlater).trans ?_
      split
      · next htext =>
        rw [(readLine_text _ htext).1, ← List.append_assoc, List.count_append,
          List.count_eq_zero.2 (newline_notMem levels line')]
        rfl
      · next htext =>
        rw [(readLine_noText _ htext).1]
        rfl
    | succ n =>
      have hearlier : (tokensIn front).countP (Token.endsLine (number + (n + 1))) = 0 :=
        List.countP_eq_zero.2 fun t ht => by
          rw [hfront.endsLine_ne (by omega) t ht]
          exact Bool.false_ne_true
      have hlater := ih (n := n) (by simpa using hline)
      rw [show number + 1 + n = number + (n + 1) by omega] at hlater
      exact (congrArg₂ (· + ·) hearlier hlater).trans (Nat.zero_add _)

/-- In front of the end of a line that says something are its change of indentation and its pieces. -/
theorem OnLine.lexemesBefore_eq (h : OnLine number (readLine levels line).1 items)
    (htext : HasText line) (later : List Token) :
    lexemesBefore (tokensIn items ++ later) number =
      layoutLexemes levels (lineWidth line) ++ Abacus.lexemesIn (pieces line) := by
  have hlexemes := h.lexemesIn
  rw [(readLine_text _ htext).1, ← List.append_assoc, ← map_tokensIn] at hlexemes
  -- So the tokens are those before the end of the line, and the end.
  obtain ⟨before, ending, htokens, hbefore, hending⟩ := List.map_eq_append_iff.1 hlexemes
  obtain ⟨t, rest, rfl, ht, hrest⟩ := List.map_eq_cons_iff.1 hending
  obtain rfl := List.map_eq_nil_iff.1 hrest
  have hpass : ∀ t ∈ before, (!t.endsLine number) = true := by
    intro t' ht'
    have hmem : t'.lexeme ∈ before.map Token.lexeme := List.mem_map_of_mem ht'
    have hne : t'.lexeme ≠ .newline := fun heq => newline_notMem levels line (heq ▸ hbefore ▸ hmem)
    rw [h.endsLine_eq t' (by rw [htokens]; simp [ht'])]
    simpa using hne
  have hstop : (!t.endsLine number) = false := by
    rw [h.endsLine_eq t (by rw [htokens]; simp), ht]
    rfl
  rw [lexemesBefore, htokens, List.append_assoc, List.takeWhile_append_of_pos hpass,
    List.singleton_append, List.takeWhile_cons, hstop, ← hbefore]
  simp

/-- In front of the end of a later line is the whole line. -/
theorem OnLine.lexemesBefore_append (h : OnLine number said items) {number' : Nat}
    (hne : number' ≠ number) (later : List Token) :
    lexemesBefore (tokensIn items ++ later) number' =
      Abacus.lexemesIn said ++ lexemesBefore later number' := by
  have hpass : ∀ t ∈ tokensIn items, (!t.endsLine number') = true := fun t ht => by
    rw [h.endsLine_ne hne t ht]
    rfl
  rw [lexemesBefore, List.takeWhile_append_of_pos hpass, List.map_append, map_tokensIn, h.lexemesIn]
  rfl

/-- In front of the end of a line as many blocks have begun, less those that have ended, as the open
levels show. -/
theorem Lined.count_before (h : Lined number levels lines items) (hordered : Ordered levels)
    (hquiet : (readLines levels lines).countP Item.isInconsistent = 0)
    (hline : lines[n]? = some line) (htext : HasText line) :
    (lexemesBefore (tokensIn items) (number + n)).count .dedent +
        (levelsAfter levels (lines.take (n + 1))).length =
      (lexemesBefore (tokensIn items) (number + n)).count .indent + levels.length := by
  induction h generalizing n with
  | nil levels c => cases hline
  | @cons number levels line' lines front items hfront hitems ih =>
    obtain ⟨hinner, hcount⟩ := ordered_readLine hordered line'
    rw [readLines, List.countP_append] at hquiet
    rw [tokensIn, List.filterMap_append, List.take_succ_cons, levelsAfter_cons, ← tokensIn, ← tokensIn]
    cases n with
    | zero =>
      obtain rfl : line' = line := by simpa using hline
      -- What is in front of the end is all of the line but the end.
      have hrest : ∀ l : Lexeme, l ≠ .newline →
          (Abacus.lexemesIn (readLine levels line').1).count l =
            (layoutLexemes levels (lineWidth line') ++ Abacus.lexemesIn (pieces line')).count l := by
        intro l hl
        rw [(readLine_text _ htext).1, ← List.append_assoc, List.count_append, List.count_singleton,
          if_neg (by simpa using hl.symm), Nat.add_zero]
      rw [Nat.add_zero, hfront.lexemesBefore_eq htext, ← hrest .dedent (by decide),
        ← hrest .indent (by decide)]
      rw [List.take_zero]
      show _ + (readLine levels line').2.length = _
      omega
    | succ n =>
      have hlater := ih (n := n) hinner (by omega) (by simpa using hline)
      rw [show number + 1 + n = number + (n + 1) by omega] at hlater
      rw [hfront.lexemesBefore_append (by omega), List.count_append, List.count_append]
      omega

/-- The open levels at a line that says something: its own, and those of less width. -/
theorem levelsAfter_take (hordered : Ordered levels)
    (hquiet : (readLines levels lines).countP Item.isInconsistent = 0)
    (hline : lines[n]? = some line) (htext : HasText line) :
    ∃ outer, levelsAfter levels (lines.take (n + 1)) = lineWidth line :: outer ∧
      ∀ level ∈ outer, level < lineWidth line := by
  induction lines generalizing levels n with
  | nil => cases hline
  | cons line' lines ih =>
    obtain ⟨hinner, -⟩ := ordered_readLine hordered line'
    rw [readLines, List.countP_append] at hquiet
    rw [List.take_succ_cons, levelsAfter_cons]
    cases n with
    | zero =>
      obtain rfl : line' = line := by simpa using hline
      refine ⟨levels.filter (· < lineWidth line'), ?_, fun level hlevel => ?_⟩
      · exact (readLine_snd hordered htext (by omega)).1
      · simpa using (List.mem_filter.1 hlevel).2
    | succ n => exact ih hinner (by omega) (by simpa using hline)

/-- So many blocks are open on a line that says something as there are levels of less width. -/
theorem Lined.openAt_eq (h : Lined number [0] lines items)
    (hquiet : (readLines [0] lines).countP Item.isInconsistent = 0)
    (hline : lines[n]? = some line) (htext : HasText line) :
    openAt (tokensIn items) (number + n) =
      ((levelsAfter [0] (lines.take (n + 1))).filter (· < lineWidth line)).length := by
  have hcount := h.count_before ordered_start hquiet hline htext
  obtain ⟨outer, hlevels, houter⟩ := levelsAfter_take ordered_start hquiet hline htext
  rw [hlevels] at hcount ⊢
  rw [List.filter_cons_of_neg (by simp), List.filter_eq_self.2 (by simpa using houter), openAt]
  simp only [List.length_cons, List.length_nil] at hcount
  omega

end

/-! ## Comparing lines -/

section

variable {levels : List Nat} {lines : List (List Char)} {line line' : List Char} {m n : Nat}

theorem levelsAfter_append (levels : List Nat) (lines lines' : List (List Char)) :
    levelsAfter levels (lines ++ lines') = levelsAfter (levelsAfter levels lines) lines' :=
  List.foldl_append

theorem ordered_levelsAfter (h : Ordered levels) (lines : List (List Char)) :
    Ordered (levelsAfter levels lines) := by
  induction lines generalizing levels with
  | nil => exact h
  | cons line lines ih => exact ih (ordered_readLine h line).1

/-- What is not complained about in lines is not complained about in the first ones, -/
theorem quiet_readLines_left (after : List (List Char))
    (hquiet : (readLines levels (lines ++ after)).countP Item.isInconsistent = 0) :
    (readLines levels lines).countP Item.isInconsistent = 0 := by
  induction lines generalizing levels with
  | nil => exact countP_readLines_nil levels
  | cons line lines ih =>
    rw [List.cons_append, readLines, List.countP_append] at hquiet
    rw [readLines, List.countP_append, ih (by omega)]
    omega

/-- and neither in the last ones. -/
theorem quiet_readLines_right {before : List (List Char)}
    (hquiet : (readLines levels (before ++ lines)).countP Item.isInconsistent = 0) :
    (readLines (levelsAfter levels before) lines).countP Item.isInconsistent = 0 := by
  induction before generalizing levels with
  | nil => exact hquiet
  | cons line before ih =>
    rw [List.cons_append, readLines, List.countP_append] at hquiet
    exact ih (Nat.add_eq_zero_iff.1 hquiet).2

/-- Fewer levels are less wide than a width that is an open level than than a greater one. -/
theorem length_filter_lt {bound width : Nat} (hmem : bound ∈ levels) (hless : bound < width) :
    (levels.filter (· < bound)).length < (levels.filter (· < width)).length := by
  have hfilter : levels.filter (· < bound) = (levels.filter (· < width)).filter (· < bound) := by
    rw [List.filter_filter]
    refine List.filter_congr fun level _ => ?_
    rw [Bool.eq_iff_iff]
    simp
    omega
  rw [hfilter]
  refine List.length_filter_lt_length_iff_exists.2 ⟨bound, ?_, by simp⟩
  exact List.mem_filter.2 ⟨hmem, by simpa using hless⟩

/-- Two lines that say something, with no line between them that is indented less than both, are in
equally many blocks exactly if they are equally wide. -/
theorem length_levels_eq_iff (hquiet : (readLines [0] lines).countP Item.isInconsistent = 0)
    (hmn : m < n) (hm : lines[m]? = some line) (hn : lines[n]? = some line')
    (htext : HasText line) (htext' : HasText line')
    (hbetween : ∀ k between, m < k → k < n → lines[k]? = some between → HasText between →
      lineWidth line ≤ lineWidth between ∨ lineWidth line' ≤ lineWidth between) :
    ((levelsAfter [0] (lines.take (m + 1))).filter (· < lineWidth line)).length =
        ((levelsAfter [0] (lines.take (n + 1))).filter (· < lineWidth line')).length ↔
      lineWidth line = lineWidth line' := by
  have hordered := ordered_levelsAfter ordered_start (lines.take (m + 1))
  obtain ⟨outer, houter, -⟩ := levelsAfter_take ordered_start hquiet hm htext
  obtain ⟨outer', houter', -⟩ := levelsAfter_take ordered_start hquiet hn htext'
  have hcut : lines.take (n + 1) = lines.take (m + 1) ++ (lines.drop (m + 1)).take (n - m) := by
    rw [← List.take_add]
    congr 1
    omega
  rw [hcut, levelsAfter_append] at houter' ⊢
  have hmem : lineWidth line ∈ levelsAfter [0] (lines.take (m + 1)) := by simp [houter]
  have hmem' : lineWidth line' ∈ levelsAfter (levelsAfter [0] (lines.take (m + 1)))
      ((lines.drop (m + 1)).take (n - m)) := by simp [houter']
  generalize hlevels : levelsAfter [0] (lines.take (m + 1)) = levels at *
  have hpart : (readLines levels ((lines.drop (m + 1)).take (n - m))).countP Item.isInconsistent = 0 := by
    rw [← hlevels]
    refine quiet_readLines_right (quiet_readLines_left (lines.drop (n + 1)) ?_)
    rwa [← hcut, List.take_append_drop]
  -- The second line and those between are at least as wide as the narrower one of the two.
  have hwidths : ∀ bound, bound ≤ lineWidth line → bound ≤ lineWidth line' →
      ∀ between ∈ (lines.drop (m + 1)).take (n - m), HasText between →
        bound ≤ lineWidth between := by
    intro bound hle hle' between hmem hsays
    obtain ⟨k, hk, hget⟩ := List.mem_take_iff_getElem.1 hmem
    have hget : lines[m + 1 + k]? = some between := by
      rw [← List.getElem?_drop, List.getElem?_eq_some_iff]
      exact ⟨by omega, hget⟩
    obtain hlast | hless : m + 1 + k = n ∨ m + 1 + k < n := by omega
    · rw [hlast, hn] at hget
      obtain rfl := Option.some.inj hget
      exact hle'
    · obtain hwide | hwide := hbetween _ between (by omega) hless hget hsays <;> omega
  rcases Nat.lt_trichotomy (lineWidth line) (lineWidth line') with hless | heq | hless
  · -- The level of the first line is still open, and the second line is deeper.
    have hkept := hwidths _ (Nat.le_refl _) (Nat.le_of_lt hless)
    have hfewer := length_filter_lt (mem_levelsAfter hordered hpart hkept hmem) hless
    rw [filter_levelsAfter hordered hpart hkept] at hfewer
    exact iff_of_false (Nat.ne_of_lt hfewer) (Nat.ne_of_lt hless)
  · have hkept := hwidths _ (Nat.le_refl _) (Nat.le_of_eq heq)
    rw [← heq, filter_levelsAfter hordered hpart hkept]
    exact iff_of_true rfl rfl
  · -- The level of the second line was open before the first one, since nothing between opens it.
    have hkept := hwidths _ (Nat.le_of_lt hless) (Nat.le_refl _)
    have hopen : lineWidth line' ∈ levels := by
      by_contra hno
      exact notMem_levelsAfter hordered hpart hkept hno ⟨_, hmem, hless⟩ hmem'
    have hfewer := length_filter_lt hopen hless
    rw [← filter_levelsAfter hordered hpart hkept] at hfewer
    exact iff_of_false (Nat.ne_of_gt hfewer) (Nat.ne_of_gt hless)

end

/-! ## Texts -/

/-- The lexemes of a text. -/
def lexemesOf (text : String) : List Lexeme := (scan text).tokens.map Token.lexeme

/-- How the layout tokens of a text stand. Lines count from 1. -/
structure Bracketed (text : String) : Prop where
  /-- There is one `eof`, at the end. -/
  ended : ∃ front, lexemesOf text = front ++ [.eof] ∧ .eof ∉ front
  /-- A block begins at the start of the text or of a line. -/
  indented : ∀ i, (lexemesOf text)[i]? = some .indent →
    i = 0 ∨ ∃ j, i = j + 1 ∧ (lexemesOf text)[j]? = some .newline
  /-- A block ends at the start of a line, or where another one ends. -/
  dedented : ∀ i, (lexemesOf text)[i]? = some .dedent → ∃ j, i = j + 1 ∧
    ((lexemesOf text)[j]? = some .newline ∨ (lexemesOf text)[j]? = some .dedent)
  /-- No block begins where one ends. -/
  apart : ∀ i, (lexemesOf text)[i]? = some .dedent → (lexemesOf text)[i + 1]? ≠ some .indent
  /-- A line that says something has one end, any other line has none. -/
  lines : ∀ n line, (linesOf text)[n]? = some line →
    (scan text).tokens.countP (Token.endsLine (n + 1)) = if HasText line then 1 else 0
  /-- There are as many ends of blocks as beginnings and made up levels. -/
  counted : (lexemesOf text).count .dedent = (lexemesOf text).count .indent +
    (scan text).complaints.countP (·.message = "inconsistent indentation")
  /-- Without complaints no block is ended that was not begun, and all are ended. -/
  balanced : (scan text).complaints = [] →
    (∀ i, ((lexemesOf text).take i).count .dedent ≤ ((lexemesOf text).take i).count .indent) ∧
      (lexemesOf text).count .dedent = (lexemesOf text).count .indent
  /-- Without complaints two lines, with no line between them that is indented less than both, are in
  equally many blocks exactly if they are equally wide. -/
  aligned : (scan text).complaints = [] → ∀ m n line line', m < n →
    (linesOf text)[m]? = some line → (linesOf text)[n]? = some line' →
    HasText line → HasText line' →
    (∀ k between, m < k → k < n → (linesOf text)[k]? = some between → HasText between →
      ¬ (lineWidth between < lineWidth line ∧ lineWidth between < lineWidth line')) →
    (openAt (scan text).tokens (m + 1) = openAt (scan text).tokens (n + 1) ↔
      lineWidth line = lineWidth line')
  /-- Without complaints a line without indentation is in no block. -/
  outermost : (scan text).complaints = [] → ∀ n line, (linesOf text)[n]? = some line →
    HasText line → lineWidth line = 0 → openAt (scan text).tokens (n + 1) = 0

theorem lexemesOf_eq (text : String) :
    lexemesOf text = lexemesIn (readLines [0] (linesOf text)) := lexemes_scan text

theorem countP_complaints (text : String) :
    (scan text).complaints.countP (·.message = "inconsistent indentation") =
      (readLines [0] (linesOf text)).countP Item.isInconsistent := by
  have hmessages : (scan text).complaints.countP (·.message = "inconsistent indentation") =
      ((scan text).complaints.map Diagnostic.unplaced).countP
        (·.message = "inconsistent indentation") := by
    rw [List.countP_map]
    rfl
  rw [hmessages, complaints_scan, List.countP_filterMap]
  refine List.countP_congr fun item _ => ?_
  cases item <;> simp [Item.isInconsistent, Item.complaint?]

/-- The layout tokens of every text are well bracketed. The tokens end in one `eof`; a block begins at
the start of the text or of a line and ends at the start of a line or where another one ends, and none
begins where one ends; a line that says something has one end; and there are as many ends of blocks as
beginnings and complaints about levels that were never opened. Without complaints the ends come after
their beginnings, and two lines, with no line between them that is indented less than both, are in
equally many blocks exactly if they are equally wide, in none if they have no indentation. -/
theorem scan_bracketed (text : String) : Bracketed text := by
  have hchain := isChain_readLines [0] (linesOf text)
  rw [← lexemesOf_eq] at hchain
  have hadjoins : ∀ i l l', (lexemesOf text)[i]? = some l → (lexemesOf text)[i + 1]? = some l' →
      Adjoins l l' := by
    intro i l l' hl hl'
    obtain ⟨hi, rfl⟩ := List.getElem?_eq_some_iff.1 hl
    obtain ⟨hi', rfl⟩ := List.getElem?_eq_some_iff.1 hl'
    exact hchain.tail.getElem i hi'
  have hbefore : ∀ i l', (lexemesOf text)[i + 1]? = some l' →
      ∃ l, (lexemesOf text)[i]? = some l ∧ Adjoins l l' := by
    intro i l' hl'
    obtain ⟨hi', -⟩ := List.getElem?_eq_some_iff.1 hl'
    have hl := List.getElem?_eq_getElem (Nat.lt_of_succ_lt hi')
    exact ⟨_, hl, hadjoins i _ _ hl hl'⟩
  have hquiet : (scan text).complaints = [] →
      (readLines [0] (linesOf text)).countP Item.isInconsistent = 0 := by
    intro hnone
    rw [← countP_complaints, hnone]
    rfl
  have hcounted := count_readLines ordered_start (linesOf text)
  rw [← lexemesOf_eq, ← countP_complaints, List.length_singleton] at hcounted
  have hopen : (scan text).complaints = [] → ∀ n line, (linesOf text)[n]? = some line →
      HasText line → openAt (scan text).tokens (n + 1) =
        ((levelsAfter [0] ((linesOf text).take (n + 1))).filter (· < lineWidth line)).length := by
    intro hnone n line hline htext
    rw [← (scanItems_lined text).openAt_eq (hquiet hnone) hline htext, Nat.add_comm]
    rfl
  refine ⟨?ended, ?indented, ?dedented, ?apart, ?lines, by omega, ?balanced, ?aligned, ?outermost⟩
  case ended => exact lexemesOf_eq text ▸ readLines_ends [0] (linesOf text)
  case indented =>
    rintro (_ | i) hi
    · exact .inl rfl
    · obtain ⟨l, hl, hadjoins⟩ := hbefore i _ hi
      exact .inr ⟨i, rfl, hadjoins.1 rfl ▸ hl⟩
  case dedented =>
    rintro (_ | i) hi
    · rw [lexemesOf_eq, ← List.head?_eq_getElem?] at hi
      exact absurd hi (head?_readLines _)
    · obtain ⟨l, hl, hadjoins⟩ := hbefore i _ hi
      obtain rfl | rfl := hadjoins.2 rfl
      · exact ⟨i, rfl, .inl hl⟩
      · exact ⟨i, rfl, .inr hl⟩
  case apart =>
    intro i hi hi'
    cases (hadjoins i _ _ hi hi').1 rfl
  case lines =>
    intro n line hline
    rw [← (scanItems_lined text).countP_endsLine hline, Nat.add_comm]
    rfl
  case balanced =>
    intro hnone
    refine ⟨fun i => ?_, ?_⟩
    · have hfront : (lexemesOf text).take i <+: lexemesIn (readLines [0] (linesOf text)) :=
        lexemesOf_eq text ▸ List.take_prefix i _
      have hle := prefix_readLines ordered_start (hquiet hnone) hfront
      rw [List.length_singleton] at hle
      omega
    · have hzero := hquiet hnone
      rw [← countP_complaints] at hzero
      omega
  case aligned =>
    intro hnone m n line line' hmn hm hn htext htext' hbetween
    rw [hopen hnone m line hm htext, hopen hnone n line' hn htext']
    refine length_levels_eq_iff (hquiet hnone) hmn hm hn htext htext' fun k between hmk hkn hk hsays => ?_
    have := hbetween k between hmk hkn hk hsays
    omega
  case outermost =>
    intro hnone n line hline htext hwidth
    rw [hopen hnone n line hline htext, hwidth]
    simp

end Abacus
