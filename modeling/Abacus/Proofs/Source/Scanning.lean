import Mathlib.Data.List.DropRight
import Mathlib.Data.List.TakeWhile
import Abacus.Proofs.Tree.Reading

/-!
# Texts that are read without complaints

A text without complaints is read line by line into lexemes. What has been read does not depend on
where the text stands, nor on the lines that follow it: after the last line the reader is at the
start of a line, with some levels of indentation still open, and what follows closes them.

* `lexemeAt_append_tail` — a token ends where something else starts, at the latest with its line;
* `lineStart_of_nil`, `lineRest_of_newline` and the like — the reader, one step at a time;
* `line_induction` — induction over a text the way the reader goes through it.
-/

namespace Abacus

/-! ## Tokens end with their line -/

/-- What follows is nothing, or the next line. -/
def EndOfLine (tail : List Char) : Prop := ∀ c ∈ tail.head?, c = '\n'

section

variable {p : Char → Bool} {chars tail : List Char}

theorem drop_length_takeWhile (p : Char → Bool) (chars : List Char) :
    chars.drop (chars.takeWhile p).length = chars.dropWhile p :=
  calc chars.drop (chars.takeWhile p).length
    _ = (chars.takeWhile p ++ chars.dropWhile p).drop (chars.takeWhile p).length := by
      rw [List.takeWhile_append_dropWhile]
    _ = chars.dropWhile p := List.drop_left

theorem takeWhile_append_tail (hp : ∀ c ∈ tail.head?, p c = false) :
    (chars ++ tail).takeWhile p = chars.takeWhile p := by
  have hnone : tail.takeWhile p = [] := by
    cases tail with
    | nil => rfl
    | cons c rest => exact List.takeWhile_cons_of_neg (by simp [hp c rfl])
  rw [List.takeWhile_append, hnone]
  split
  · next hlength =>
    rw [List.append_nil]
    exact ((List.takeWhile_prefix p).eq_of_length hlength).symm
  · rfl

theorem dropWhile_append_tail (hp : ∀ c ∈ tail.head?, p c = false) :
    (chars ++ tail).dropWhile p = chars.dropWhile p ++ tail := by
  have hall : tail.dropWhile p = tail := by
    cases tail with
    | nil => rfl
    | cons c rest => exact List.dropWhile_cons_of_neg (by simp [hp c rfl])
  rw [List.dropWhile_append, hall]
  split
  · next hempty => rw [List.isEmpty_iff.1 hempty, List.nil_append]
  · rfl

theorem EndOfLine.head_false (htail : EndOfLine tail) (hp : p '\n' = false) :
    ∀ c ∈ tail.head?, p c = false := by
  intro c hc
  rwa [htail c hc]

/-- What follows does not belong to the token before it. -/
def Delimits (tail : List Char) : Prop := ∀ c ∈ tail.head?, isNamePart c = false ∧ c ≠ '.' ∧ c ≠ '='

theorem EndOfLine.delimits (htail : EndOfLine tail) : Delimits tail := by
  intro c hc
  rw [htail c hc]
  decide

theorem Delimits.digit (htail : Delimits tail) : ∀ c ∈ tail.head?, c.isDigit = false := by
  intro c hc
  have hpart := (htail c hc).1
  simp only [isNamePart, Char.isAlphanum, Bool.or_eq_false_iff] at hpart
  exact hpart.1.2

theorem numberParts_append_tail (htail : Delimits tail) :
    numberParts (chars ++ tail) = numberParts chars := by
  have hdigits : ∀ chars : List Char,
      (chars ++ tail).takeWhile Char.isDigit = chars.takeWhile Char.isDigit :=
    fun _ => takeWhile_append_tail htail.digit
  unfold numberParts
  rw [hdigits, dropWhile_append_tail htail.digit]
  rcases chars.dropWhile Char.isDigit with _ | ⟨c, _ | ⟨d, more⟩⟩
  · cases tail with
    | nil => rfl
    | cons c rest => simp [(htail c rfl).2.1]
  · cases tail with
    | nil => rfl
    | cons d rest =>
      by_cases hc : c = '.'
      · simp [hc, htail.digit d rfl]
      · simp [hc]
  · by_cases hc : c = '.'
    · simp only [hc, List.cons_append, hdigits]
    · simp [hc]

/-- A token ends where something else starts. -/
theorem lexemeAt_append_tail (hchars : chars ≠ []) (htail : Delimits tail) :
    lexemeAt (chars ++ tail) = lexemeAt chars := by
  obtain ⟨c, rest, rfl⟩ := List.exists_cons_of_ne_nil hchars
  have hhead : ((rest ++ tail).head? = some '=') = (rest.head? = some '=') := by
    cases rest with
    | nil =>
      cases tail with
      | nil => rfl
      | cons c rest => simp [(htail c rfl).2.2]
    | cons _ _ => rfl
  have hparts : numberParts (c :: rest ++ tail) = numberParts (c :: rest) :=
    numberParts_append_tail htail
  have hname : (rest ++ tail).takeWhile isNamePart = rest.takeWhile isNamePart :=
    takeWhile_append_tail fun c hc => (htail c hc).1
  rw [List.cons_append] at hparts ⊢
  unfold lexemeAt
  simp only [hname, hhead, hparts]

theorem length_numberParts_le {whole fraction : List Char}
    (h : numberParts chars = (whole, some fraction)) :
    whole.length + 1 + fraction.length ≤ chars.length := by
  have hlength := congrArg List.length (List.takeWhile_append_dropWhile (p := Char.isDigit) (l := chars))
  rw [List.length_append] at hlength
  unfold numberParts at h
  split at h
  · next d more hrest =>
    split at h
    · cases h
      have hmore := (List.takeWhile_prefix Char.isDigit (l := more)).length_le
      simp only [hrest, List.length_cons] at hlength ⊢
      omega
    · cases h
  · cases h

/-- A token takes no more characters than there are. -/
theorem lexemeAt_le (hchars : chars ≠ []) : (lexemeAt chars).2 ≤ chars.length := by
  obtain ⟨c, rest, rfl⟩ := List.exists_cons_of_ne_nil hchars
  simp only [lexemeAt]
  split
  · simpa using (List.takeWhile_prefix isNamePart).length_le
  · split
    · split
      · next whole fraction hparts => exact length_numberParts_le hparts
      · next whole hparts =>
        have hwhole := congrArg Prod.fst hparts
        rw [numberParts_fst] at hwhole
        have hle := (List.takeWhile_prefix Char.isDigit (l := c :: rest)).length_le
        rw [hwhole] at hle
        split <;> exact hle
    · split
      · next h =>
        cases rest with
        | nil => simp at h
        | cons d rest => simp
      · split <;> simp

/-- What is read as a token is no layout. -/
theorem isLayout_of_lexemeAt {l : Lexeme} {n : Nat} (h : lexemeAt chars = (.ok l, n)) :
    l.isLayout = false := by
  unfold lexemeAt at h
  split at h
  · cases h
  · next c rest =>
    split at h
    · obtain ⟨hl, -⟩ := Prod.mk.inj h
      obtain rfl := Except.ok.inj hl
      cases hword : Lexeme.keyword? (String.ofList (c :: rest.takeWhile isNamePart)) with
      | none => rfl
      | some l =>
        rw [Option.getD_some]
        unfold Lexeme.keyword? at hword
        split at hword <;> cases hword <;> rfl
    · split at h
      · split at h
        · cases h
          rfl
        · split at h
          · cases h
            rfl
          · cases h
      · split at h
        · cases h
          rfl
        · split at h
          · next symbol hsymbol =>
            cases h
            unfold Lexeme.symbol? at hsymbol
            split at hsymbol <;> cases hsymbol <;> rfl
          · cases h

end

/-! ## The rest of a line -/

namespace Cursor

variable {c c' : Cursor} {p : Char → Bool} {tail : List Char}

theorem rest_skipWhile (c : Cursor) (p : Char → Bool) : (c.skipWhile p).rest = c.rest.dropWhile p :=
  drop_length_takeWhile p c.rest

/-- Steps over blanks, and over a comment if one comes. -/
def skipBlanks (c : Cursor) : Cursor :=
  if (c.skipWhile isBlank).rest.head? = some '#' then
    (c.skipWhile isBlank).skipWhile (· != '\n')
  else c.skipWhile isBlank

theorem skipWhile_of_neg (h : ∀ d ∈ c.rest.head?, p d = false) : c.skipWhile p = c := by
  have hnone : c.rest.takeWhile p = [] := by
    cases hrest : c.rest with
    | nil => rfl
    | cons d rest => exact List.takeWhile_cons_of_neg (by simp [h d (by simp [hrest])])
  unfold skipWhile advance
  rw [hnone]
  rfl

theorem line_skipBlanks (c : Cursor) : c.skipBlanks.line = c.line := by
  unfold skipBlanks
  split <;> rfl

theorem length_skipBlanks_le (c : Cursor) : c.skipBlanks.rest.length ≤ c.rest.length := by
  have hblanks := length_rest_skipWhile_le c isBlank
  unfold skipBlanks
  split
  · exact Nat.le_trans (length_rest_skipWhile_le _ _) hblanks
  · exact hblanks

/-- Blanks and comments end with their line. -/
theorem rest_skipBlanks_append (h : c'.rest = c.rest ++ tail) (htail : EndOfLine tail) :
    c'.skipBlanks.rest = c.skipBlanks.rest ++ tail := by
  have hblanks : (c'.skipWhile isBlank).rest = (c.skipWhile isBlank).rest ++ tail := by
    rw [rest_skipWhile, rest_skipWhile, h, dropWhile_append_tail (htail.head_false (by decide))]
  have hhead : ((c'.skipWhile isBlank).rest.head? = some '#') =
      ((c.skipWhile isBlank).rest.head? = some '#') := by
    rw [hblanks]
    cases (c.skipWhile isBlank).rest with
    | cons _ _ => rfl
    | nil =>
      cases tail with
      | nil => rfl
      | cons d rest =>
        rw [htail d rfl]
        simp
  unfold skipBlanks
  simp only [hhead]
  split
  · rw [rest_skipWhile, rest_skipWhile (c.skipWhile isBlank), hblanks,
      dropWhile_append_tail (htail.head_false (by decide))]
  · exact hblanks

theorem rest_skipBlanks_same (h : c'.rest = c.rest) : c'.skipBlanks.rest = c.skipBlanks.rest := by
  rw [← List.append_nil c.rest] at h
  rw [rest_skipBlanks_append h (by simp [EndOfLine]), List.append_nil]

/-- What comes after blanks and a comment is neither. -/
theorem head_skipBlanks {d : Char} {rest : List Char} (h : c.skipBlanks.rest = d :: rest) :
    isBlank d = false ∧ d ≠ '#' := by
  unfold skipBlanks at h
  split at h
  · next hcomment =>
    have hd := List.head?_dropWhile_not (· != '\n') (c.skipWhile isBlank).rest
    rw [← rest_skipWhile, h] at hd
    obtain rfl : d = '\n' := by simpa using hd
    decide
  · next hcomment =>
    have hd := List.head?_dropWhile_not isBlank c.rest
    rw [← rest_skipWhile, h] at hd
    exact ⟨by simpa using hd, fun hd => hcomment (by rw [h, hd]; rfl)⟩

/-- Blanks are skipped once. -/
theorem skipBlanks_of_text {d : Char} {rest : List Char} (h : c.skipBlanks.rest = d :: rest)
    (hd : d ≠ '\n') : c.skipBlanks = c.skipWhile isBlank := by
  unfold skipBlanks at h ⊢
  split
  · next hcomment =>
    rw [if_pos hcomment] at h
    have hd' := List.head?_dropWhile_not (· != '\n') (c.skipWhile isBlank).rest
    rw [← rest_skipWhile, h] at hd'
    exact absurd (by simpa using hd') hd
  · rfl

theorem skipWhile_skipBlanks (c : Cursor) : c.skipBlanks.skipWhile isBlank = c.skipBlanks :=
  skipWhile_of_neg fun d hd => by
    obtain ⟨rest, hrest⟩ := List.head?_eq_some_iff.1 hd
    exact (head_skipBlanks hrest).1

theorem skipBlanks_skipBlanks (c : Cursor) : c.skipBlanks.skipBlanks = c.skipBlanks := by
  rw [skipBlanks, skipWhile_skipBlanks]
  refine if_neg fun hcomment => ?_
  obtain ⟨rest, hrest⟩ := List.head?_eq_some_iff.1 hcomment
  exact (head_skipBlanks hrest).2 rfl

end Cursor

/-! ## Reading line by line -/

section

variable {levels : List Nat} {c : Cursor}

/-- The complaints about tabs at the start of a line. -/
def tabsAt (c : Cursor) : List Item := tabComplaints c (c.rest.takeWhile isBlank).length

theorem lineStart_of_nil (h : c.skipBlanks.rest = []) :
    lineStart levels c = tabsAt c ++ closing levels c.skipBlanks := by
  unfold Cursor.skipBlanks at h ⊢
  rw [lineStart]
  split
  · next heq => simp [heq, tabsAt]
  · next heq => simp [heq] at h
  · next heq =>
    simp only [heq, List.head?_cons, if_true] at h ⊢
    split
    · rfl
    · next heq' => rw [heq'] at h; cases h
  · next d rest _ hcomment heq =>
    rw [if_neg (by simpa [heq] using hcomment), heq] at h
    cases h

theorem lineStart_of_newline {rest : List Char} (h : c.skipBlanks.rest = '\n' :: rest) :
    lineStart levels c = tabsAt c ++ lineStart levels c.skipBlanks.nextLine := by
  unfold Cursor.skipBlanks at h ⊢
  rw [lineStart]
  split
  · next heq => simp [heq] at h
  · next heq => simp [heq, tabsAt]
  · next heq =>
    simp only [heq, List.head?_cons, if_true] at h ⊢
    split
    · next heq' => rw [heq'] at h; cases h
    · rfl
  · next d rest hnewline hcomment heq =>
    rw [if_neg (by simpa [heq] using hcomment), heq] at h
    exact absurd (List.cons.inj h).1 hnewline

theorem lineStart_of_text {d : Char} {rest : List Char} (h : c.skipBlanks.rest = d :: rest)
    (hd : d ≠ '\n') :
    lineStart levels c = tabsAt c ++
      ((layout levels (indentWidth (c.rest.takeWhile isBlank)) (c.spanTo c.skipBlanks)).1 ++
        lineRest (layout levels (indentWidth (c.rest.takeWhile isBlank))
          (c.spanTo c.skipBlanks)).2 c.skipBlanks) := by
  have hcomment := (Cursor.head_skipBlanks h).2
  have heq := Cursor.skipBlanks_of_text h hd
  rw [heq] at h ⊢
  rw [lineStart]
  split
  · next heq => rw [heq] at h; cases h
  · next heq => rw [heq] at h; exact absurd (List.cons.inj h).1.symm hd
  · next heq => rw [heq] at h; exact absurd (List.cons.inj h).1.symm hcomment
  · rw [← List.append_assoc]
    rfl

/-- Within a line, blanks and a comment are skipped. -/
theorem lineRest_skipBlanks : lineRest levels c = lineRest levels c.skipBlanks := by
  by_cases hcomment : (c.skipWhile isBlank).rest.head? = some '#'
  · obtain ⟨rest, hrest⟩ := List.head?_eq_some_iff.1 hcomment
    rw [Cursor.skipBlanks, if_pos hcomment, lineRest]
    split
    · next heq => rw [heq] at hrest; cases hrest
    · next heq => rw [heq] at hrest; cases hrest
    · rfl
    · next hno heq => rw [heq] at hrest; exact absurd (List.cons.inj hrest).1 hno
  · have hskip := c.skipWhile_skipBlanks
    rw [Cursor.skipBlanks, if_neg hcomment] at hskip ⊢
    rw [lineRest, lineRest.eq_1 levels (c.skipWhile isBlank), hskip]

theorem lineRest_of_nil (h : c.skipBlanks.rest = []) :
    lineRest levels c =
      .token ⟨.newline, c.skipBlanks.spanTo c.skipBlanks⟩ :: closing levels c.skipBlanks := by
  have hskip := c.skipWhile_skipBlanks
  rw [lineRest_skipBlanks, lineRest]
  split
  · rw [hskip]
  · next heq => rw [hskip, h] at heq; cases heq
  · next heq => rw [hskip, h] at heq; cases heq
  · next heq => rw [hskip, h] at heq; cases heq

theorem lineRest_of_newline {rest : List Char} (h : c.skipBlanks.rest = '\n' :: rest) :
    lineRest levels c = .token ⟨.newline, c.skipBlanks.spanTo (c.skipBlanks.advance 1)⟩ ::
      lineStart levels c.skipBlanks.nextLine := by
  have hskip := c.skipWhile_skipBlanks
  rw [lineRest_skipBlanks, lineRest]
  split
  · next heq => rw [hskip, h] at heq; cases heq
  · rw [hskip]
  · next heq => rw [hskip, h] at heq; cases heq
  · next hno _ heq =>
    rw [hskip, h] at heq
    exact absurd (List.cons.inj heq).1.symm hno

theorem lineRest_of_text {d : Char} {rest : List Char} (h : c.skipBlanks.rest = d :: rest)
    (hd : d ≠ '\n') :
    lineRest levels c = (scanToken c.skipBlanks).1 :: lineRest levels (scanToken c.skipBlanks).2 := by
  have hskip := c.skipWhile_skipBlanks
  have hcomment := (Cursor.head_skipBlanks h).2
  rw [lineRest_skipBlanks, lineRest]
  split
  · next heq => rw [hskip, h] at heq; cases heq
  · next heq => rw [hskip, h] at heq; exact absurd (List.cons.inj heq).1 hd
  · next heq => rw [hskip, h] at heq; exact absurd (List.cons.inj heq).1 hcomment
  · rw [hskip]

/-- Induction on the lines of a text and the tokens of a line. -/
theorem line_induction {start within : List Nat → Cursor → Prop}
    (start_nil : ∀ levels c, c.skipBlanks.rest = [] → start levels c)
    (start_newline : ∀ levels c rest, c.skipBlanks.rest = '\n' :: rest →
      start levels c.skipBlanks.nextLine → start levels c)
    (start_text : ∀ levels c d rest, c.skipBlanks.rest = d :: rest → d ≠ '\n' →
      (∀ inner, within inner c.skipBlanks) → start levels c)
    (within_nil : ∀ levels c, c.skipBlanks.rest = [] → within levels c)
    (within_newline : ∀ levels c rest, c.skipBlanks.rest = '\n' :: rest →
      start levels c.skipBlanks.nextLine → within levels c)
    (within_text : ∀ levels c d rest, c.skipBlanks.rest = d :: rest → d ≠ '\n' →
      within levels (scanToken c.skipBlanks).2 → within levels c) :
    (∀ levels c, start levels c) ∧ ∀ levels c, within levels c := by
  suffices h : ∀ n levels c, c.rest.length = n → within levels c ∧ start levels c from
    ⟨fun levels c => (h _ levels c rfl).2, fun levels c => (h _ levels c rfl).1⟩
  intro n
  induction n using Nat.strongRecOn with
  | ind n ih =>
    have hwithin : ∀ levels c, c.rest.length = n → within levels c := by
      intro levels c hlength
      have hle := c.length_skipBlanks_le
      cases hrest : c.skipBlanks.rest with
      | nil => exact within_nil levels c hrest
      | cons d rest =>
        rw [hrest] at hle
        by_cases hd : d = '\n'
        · subst hd
          refine within_newline levels c rest hrest (ih rest.length ?_ _ _ ?_).2
          · simp only [List.length_cons] at hle
            omega
          · simp [hrest]
        · have hless := length_rest_scanToken_lt c.skipBlanks (by simp [hrest])
          rw [hrest] at hless
          exact within_text levels c d rest hrest hd (ih _ (by omega) _ _ rfl).1
    intro levels c hlength
    refine ⟨hwithin levels c hlength, ?_⟩
    have hle := c.length_skipBlanks_le
    cases hrest : c.skipBlanks.rest with
    | nil => exact start_nil levels c hrest
    | cons d rest =>
      rw [hrest] at hle
      by_cases hd : d = '\n'
      · subst hd
        refine start_newline levels c rest hrest (ih rest.length ?_ _ _ ?_).2
        · simp only [List.length_cons] at hle
          omega
        · simp [hrest]
      · refine start_text levels c d rest hrest hd fun inner => ?_
        rcases Nat.lt_or_eq_of_le hle with hless | heq
        · exact (ih _ (by rw [← hlength]; exact hless) _ _ (by rw [hrest])).1
        · exact hwithin inner _ (by rw [hrest, heq, hlength])

end

end Abacus
