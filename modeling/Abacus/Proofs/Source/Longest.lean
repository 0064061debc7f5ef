import Abacus.Proofs.Grammar.Printing

/-!
# Tokens are as long as possible

How a lexeme is written does not depend on what stands around it. Of all the lexemes that are written
where the reader is, it takes the one that takes the most characters. It complains where there is none,
and about digits whose value is too large for an integer.

* `Lexeme.IsWritten` — how lexemes are written;
* `lexemeAt_longest` — nothing longer than what the reader takes is a lexeme;
* `Taken`, `lexemeAt_taken` — what it takes, and when it complains.
-/

namespace Abacus

open Grammar (isName isNamePart_of_isNameStart isNameStart_of_isDigit takeWhile_of_all digits_append)

/-- How lexemes are written. Layout is not written: it is made of line ends and indentations. -/
inductive Lexeme.IsWritten : Lexeme → List Char → Prop
  | keyword {l : Lexeme} {word : List Char} : keyword? (String.ofList word) = some l → IsWritten l word
  | ident {word : List Char} : isName word = true → keyword? (String.ofList word) = none →
      IsWritten (ident (String.ofList word)) word
  | symbol {l : Lexeme} {c : Char} : symbol? c = some l → IsWritten l [c]
  | equalsEquals : IsWritten equalsEquals ['=', '=']
  | integer {value : Int64} {digits : List Char} : Literal.isDigits digits = true →
      value.toInt = Literal.digitsValue digits → IsWritten (integer value) digits
  | floating {whole fraction : List Char} : Literal.isDigits whole = true →
      Literal.isDigits fraction = true →
      IsWritten (floating (Literal.float whole fraction 0)) (whole ++ '.' :: fraction)

/-- What the reader says of the characters `word` that it takes in front of `rest`. -/
inductive Taken (word rest : List Char) : Except String Lexeme → Prop
  | lexeme {l : Lexeme} : l.IsWritten word →
      (∀ longer, ∀ l' : Lexeme, l'.IsWritten longer → longer <+: word ++ rest → longer.length ≤ word.length) →
      Taken word rest (.ok l)
  | outOfRange : Literal.isDigits word = true → 2 ^ 63 - 1 < Literal.digitsValue word →
      (∀ c ∈ rest.head?, c.isDigit = false) → Taken word rest (.error "integer literal out of range")
  | invalid {c : Char} : word = [c] → (∀ longer, ∀ l : Lexeme, l.IsWritten longer → ¬ longer <+: word ++ rest) →
      Taken word rest (.error "invalid token")

section

variable {chars word whole fraction rest : List Char} {c : Char} {l : Lexeme} {n : Nat}

/-! ## The kinds of characters -/

theorem isDigits_iff : Literal.isDigits chars = true ↔ chars ≠ [] ∧ ∀ c ∈ chars, c.isDigit = true := by
  simp [Literal.isDigits]

theorem isName_cons : isName (c :: rest) = true ↔
    isNameStart c = true ∧ ∀ d ∈ rest, isNamePart d = true := by
  simp [isName]

theorem isName_of_keyword (h : Lexeme.keyword? (String.ofList word) = some l) : isName word = true := by
  rw [← String.toList_ofList (l := word)]
  unfold Lexeme.keyword? at h
  split at h
  case h_7 => cases h
  all_goals
    next heq =>
      rw [heq]
      decide

theorem symbol_kind (h : Lexeme.symbol? c = some l) : isNameStart c = false ∧ c.isDigit = false := by
  unfold Lexeme.symbol? at h
  split at h
  case h_12 => cases h
  all_goals decide

/-- A run of characters of a kind is no longer than the longest one. -/
theorem length_le_takeWhile {p : Char → Bool} (h : ∀ c ∈ word, p c = true) (hstart : word <+: chars) :
    word.length ≤ (chars.takeWhile p).length := by
  obtain ⟨rest, rfl⟩ := hstart
  rw [List.takeWhile_append_of_pos h, List.length_append]
  exact Nat.le_add_right _ _

/-! ## The reader, by the first character -/

theorem lexemeAt_word (hc : isNameStart c = true) : lexemeAt (c :: rest) =
    (.ok ((Lexeme.keyword? (String.ofList (c :: rest.takeWhile isNamePart))).getD
      (.ident (String.ofList (c :: rest.takeWhile isNamePart)))),
      (c :: rest.takeWhile isNamePart).length) := by
  rw [lexemeAt, if_pos hc]

theorem lexemeAt_integer (hc : c.isDigit = true) (h : numberParts (c :: rest) = (whole, none)) :
    lexemeAt (c :: rest) = (match Literal.integer? whole with
      | some value => .ok (.integer value)
      | none => .error "integer literal out of range", whole.length) := by
  rw [lexemeAt, if_neg (by simp [isNameStart_of_isDigit hc]), if_pos hc, h]
  dsimp only
  cases Literal.integer? whole <;> rfl

theorem lexemeAt_floating (hc : c.isDigit = true)
    (h : numberParts (c :: rest) = (whole, some fraction)) : lexemeAt (c :: rest) =
      (.ok (.floating (Literal.float whole fraction 0)), whole.length + 1 + fraction.length) := by
  rw [lexemeAt, if_neg (by simp [isNameStart_of_isDigit hc]), if_pos hc, h]

theorem lexemeAt_symbol (hname : isNameStart c = false) (hdigit : c.isDigit = false) :
    lexemeAt (c :: rest) = if c = '=' ∧ rest.head? = some '=' then (.ok .equalsEquals, 2)
      else (match Lexeme.symbol? c with
        | some symbol => .ok symbol
        | none => .error "invalid token", 1) := by
  rw [lexemeAt, if_neg (by simp [hname]), if_neg (by simp [hdigit])]
  simp only [Bool.and_eq_true, decide_eq_true_eq]
  cases Lexeme.symbol? c <;> rfl

/-! ## Nothing longer -/

/-- At least the digits are taken. -/
theorem length_digits_le (hc : c.isDigit = true) :
    ((c :: rest).takeWhile Char.isDigit).length ≤ (lexemeAt (c :: rest)).2 := by
  rw [← numberParts_fst]
  rcases hparts : numberParts (c :: rest) with ⟨whole, _ | fraction⟩
  · rw [lexemeAt_integer hc hparts]
  · rw [lexemeAt_floating hc hparts]
    exact Nat.le_add_right_of_le (Nat.le_succ _)

/-- Digits, a point and digits are taken together. -/
theorem numberParts_of_fraction (rest : List Char) (hwhole : ∀ c ∈ whole, c.isDigit = true)
    (hc : c.isDigit = true) : numberParts (whole ++ '.' :: c :: rest) = (whole, some (c :: rest.takeWhile Char.isDigit)) := by
  obtain ⟨htake, hdrop⟩ := digits_append hwhole ('.' :: c :: rest) (by simp)
  rw [numberParts, htake, hdrop]
  exact if_pos hc

/-- Nothing that starts here and is longer than what the reader takes is a lexeme. -/
theorem lexemeAt_longest (h : l.IsWritten word) (hstart : word <+: chars) :
    word.length ≤ (lexemeAt chars).2 := by
  have hname : isName word = true → word.length ≤ (lexemeAt chars).2 := by
    intro hword
    obtain ⟨rest, rfl⟩ := hstart
    cases word with
    | nil => cases hword
    | cons c word =>
      obtain ⟨hc, hpart⟩ := isName_cons.1 hword
      rw [List.cons_append, lexemeAt_word hc]
      exact Nat.succ_le_succ (length_le_takeWhile hpart (List.prefix_append word rest))
  -- One case for each way to write a lexeme; what is written fixes which branch the reader takes.
  cases h with
  | keyword hkeyword => exact hname (isName_of_keyword hkeyword)
  | ident hword _ => exact hname hword
  | symbol _ => exact lexemeAt_pos chars
  | equalsEquals =>
    obtain ⟨rest, rfl⟩ := hstart
    exact Nat.le_refl 2
  | integer hdigits _ =>
    obtain ⟨hne, hdigits⟩ := isDigits_iff.1 hdigits
    obtain ⟨c, more, rfl⟩ := List.exists_cons_of_ne_nil hne
    have hrun := length_le_takeWhile hdigits hstart
    obtain ⟨rest, rfl⟩ := hstart
    exact Nat.le_trans hrun (length_digits_le (hdigits c List.mem_cons_self))
  | @floating whole fraction hwhole hfraction =>
    obtain ⟨hne, hwhole⟩ := isDigits_iff.1 hwhole
    obtain ⟨hne', hfraction⟩ := isDigits_iff.1 hfraction
    obtain ⟨c, more, rfl⟩ := List.exists_cons_of_ne_nil hne
    obtain ⟨d, more', rfl⟩ := List.exists_cons_of_ne_nil hne'
    obtain ⟨hd, hmore'⟩ := List.forall_mem_cons.1 hfraction
    obtain ⟨rest, rfl⟩ := hstart
    have hparts := numberParts_of_fraction (more' ++ rest) hwhole hd
    have hrun := length_le_takeWhile hmore' (List.prefix_append more' rest)
    simp only [List.append_assoc, List.cons_append] at hparts ⊢
    rw [lexemeAt_floating (hwhole c List.mem_cons_self) hparts]
    simp only [List.length_append, List.length_cons] at hrun ⊢
    omega

/-! ## What is taken -/

/-- The parts of a number, one after the other. -/
theorem numberParts_fraction (h : numberParts chars = (whole, some fraction)) :
    Literal.isDigits fraction = true ∧ whole ++ '.' :: fraction <+: chars := by
  have hsplit := List.takeWhile_append_dropWhile (p := Char.isDigit) (l := chars)
  unfold numberParts at h
  split at h
  · next d more hrest =>
    split at h
    · next hd =>
      cases h
      constructor
      · have hmore : ∀ c ∈ more.takeWhile Char.isDigit, c.isDigit = true := fun _ => List.mem_takeWhile_imp
        exact isDigits_iff.2 ⟨List.cons_ne_nil _ _, List.forall_mem_cons.2 ⟨hd, hmore⟩⟩
      · rw [hrest] at hsplit
        conv_rhs => rw [← hsplit]
        exact (List.prefix_append_right_inj _).2 (List.cons_prefix_cons.2
          ⟨rfl, List.cons_prefix_cons.2 ⟨rfl, List.takeWhile_prefix _⟩⟩)
    · cases h
  · cases h

/-- Where digits are read, the whole part is not empty. -/
theorem isDigits_numberParts (hc : c.isDigit = true) :
    Literal.isDigits (numberParts (c :: rest)).1 = true := by
  rw [numberParts_fst]
  exact isDigits_iff.2 ⟨by simp [hc], fun d hd => List.mem_takeWhile_imp hd⟩

theorem integer?_eq_some {value : Int64} (h : Literal.integer? chars = some value) :
    value.toInt = Literal.digitsValue chars := by
  unfold Literal.integer? at h
  dsimp only at h
  split at h
  · next hle =>
    cases h
    exact Int64.toInt_ofNat_of_lt (Nat.lt_succ_of_le hle)
  · cases h

theorem integer?_eq_none (h : Literal.integer? chars = none) :
    2 ^ 63 - 1 < Literal.digitsValue chars := by
  unfold Literal.integer? at h
  dsimp only at h
  split at h
  · cases h
  · next hle => exact Nat.lt_of_not_le hle

/-- Where neither a word nor a number nor a symbol starts, no lexeme is written. -/
theorem not_isWritten (hname : isNameStart c = false) (hdigit : c.isDigit = false)
    (hsymbol : Lexeme.symbol? c = none) (h : l.IsWritten word) : ¬ word <+: c :: rest := by
  -- A word or a number would start with `c`.
  have hword : isName word = true → ¬ word <+: c :: rest := by
    intro hisname hstart
    cases word with
    | nil => cases hisname
    | cons d more =>
      obtain rfl := (List.cons_prefix_cons.1 hstart).1
      exact absurd (isName_cons.1 hisname).1 (by simp [hname])
  have hnumber : ∀ digits more, Literal.isDigits digits = true → ¬ digits ++ more <+: c :: rest := by
    intro digits more hdigits hstart
    obtain ⟨hne, hall⟩ := isDigits_iff.1 hdigits
    obtain ⟨d, others, rfl⟩ := List.exists_cons_of_ne_nil hne
    obtain rfl := (List.cons_prefix_cons.1 hstart).1
    exact absurd (hall d List.mem_cons_self) (by simp [hdigit])
  cases h with
  | keyword hkeyword => exact hword (isName_of_keyword hkeyword)
  | ident hisname _ => exact hword hisname
  | symbol hwritten =>
    rintro hstart
    obtain rfl := (List.cons_prefix_cons.1 hstart).1
    rw [hwritten] at hsymbol
    cases hsymbol
  | equalsEquals =>
    rintro hstart
    obtain rfl := (List.cons_prefix_cons.1 hstart).1
    cases hsymbol
  | integer hdigits _ =>
    rw [← List.append_nil word]
    exact hnumber _ [] hdigits
  | floating hwhole _ => exact hnumber _ _ hwhole

theorem isWritten_word (hc : isNameStart c = true) (hrest : ∀ d ∈ rest, isNamePart d = true) :
    ((Lexeme.keyword? (String.ofList (c :: rest))).getD (.ident (String.ofList (c :: rest)))).IsWritten
      (c :: rest) := by
  cases hkeyword : Lexeme.keyword? (String.ofList (c :: rest)) with
  | some l => exact .keyword hkeyword
  | none => exact .ident (isName_cons.2 ⟨hc, hrest⟩) hkeyword

theorem longest_of_length (hchars : chars = word ++ rest) (hlength : (lexemeAt chars).2 = word.length) :
    ∀ longer, ∀ l : Lexeme, l.IsWritten longer → longer <+: word ++ rest → longer.length ≤ word.length := by
  intro longer l hwritten hstart
  rw [← hchars] at hstart
  exact hlength ▸ lexemeAt_longest hwritten hstart

theorem taken_word (hc : isNameStart c = true) :
    ∃ word tail, c :: rest = word ++ tail ∧ (lexemeAt (c :: rest)).2 = word.length ∧
      Taken word tail (lexemeAt (c :: rest)).1 := by
  have hword := congrArg (c :: ·) (List.takeWhile_append_dropWhile (p := isNamePart) (l := rest)).symm
  have hlength := congrArg Prod.snd (lexemeAt_word hc : lexemeAt (c :: rest) = _)
  have hwritten := isWritten_word hc fun d hd => List.mem_takeWhile_imp (l := rest) hd
  refine ⟨_, _, hword, hlength, ?_⟩
  rw [lexemeAt_word hc]
  exact .lexeme hwritten (longest_of_length hword hlength)

theorem taken_number (hc : c.isDigit = true) :
    ∃ word tail, c :: rest = word ++ tail ∧ (lexemeAt (c :: rest)).2 = word.length ∧
      Taken word tail (lexemeAt (c :: rest)).1 := by
  have hwhole : Literal.isDigits (numberParts (c :: rest)).1 = true := isDigits_numberParts hc
  rcases hparts : numberParts (c :: rest) with ⟨whole, _ | fraction⟩
  · have hfst : whole = (c :: rest).takeWhile Char.isDigit := by rw [← numberParts_fst, hparts]
    have hword : c :: rest = whole ++ (c :: rest).dropWhile Char.isDigit := by
      rw [hfst, List.takeWhile_append_dropWhile]
    have hlength := congrArg Prod.snd (lexemeAt_integer hc hparts)
    refine ⟨_, _, hword, hlength, ?_⟩
    rw [hparts] at hwhole
    rw [lexemeAt_integer hc hparts]
    dsimp only
    split
    · next value hvalue =>
      exact .lexeme (.integer hwhole (integer?_eq_some hvalue)) (longest_of_length hword hlength)
    · next hlarge =>
      refine .outOfRange hwhole (integer?_eq_none hlarge) fun d hd => ?_
      have hnot := List.head?_dropWhile_not Char.isDigit (c :: rest)
      rw [Option.mem_def] at hd
      simpa [hd] using hnot
  · obtain ⟨hfraction, tail, htail⟩ := numberParts_fraction hparts
    have hlength : (lexemeAt (c :: rest)).2 = (whole ++ '.' :: fraction).length := by
      rw [lexemeAt_floating hc hparts, List.length_append, List.length_cons]
      exact Nat.add_right_comm _ _ _
    refine ⟨_, tail, htail.symm, hlength, ?_⟩
    rw [hparts] at hwhole
    rw [lexemeAt_floating hc hparts]
    exact .lexeme (.floating hwhole hfraction) (longest_of_length htail.symm hlength)

theorem taken_symbol (hname : isNameStart c = false) (hdigit : c.isDigit = false) :
    ∃ word tail, c :: rest = word ++ tail ∧ (lexemeAt (c :: rest)).2 = word.length ∧
      Taken word tail (lexemeAt (c :: rest)).1 := by
  by_cases hequals : c = '=' ∧ rest.head? = some '='
  · obtain ⟨rfl, hrest⟩ := hequals
    obtain ⟨more, rfl⟩ := List.head?_eq_some_iff.1 hrest
    exact ⟨['=', '='], more, rfl, rfl, .lexeme .equalsEquals (longest_of_length rfl rfl)⟩
  · have hread : lexemeAt (c :: rest) = _ := lexemeAt_symbol hname hdigit
    rw [if_neg hequals] at hread
    have hlength : (lexemeAt (c :: rest)).2 = [c].length := congrArg Prod.snd hread
    refine ⟨[c], rest, rfl, hlength, ?_⟩
    rw [hread]
    cases hsymbol : Lexeme.symbol? c with
    | some l => exact .lexeme (.symbol hsymbol) (longest_of_length rfl hlength)
    | none => exact .invalid rfl fun longer l hwritten => not_isWritten hname hdigit hsymbol hwritten

/-- What the reader takes is a lexeme as it is written, the longest one; and it complains about digits
that are too large, and about a character where no lexeme starts. -/
theorem lexemeAt_taken (hne : chars ≠ []) :
    ∃ word rest, chars = word ++ rest ∧ (lexemeAt chars).2 = word.length ∧
      Taken word rest (lexemeAt chars).1 := by
  obtain ⟨c, rest, rfl⟩ := List.exists_cons_of_ne_nil hne
  cases hname : isNameStart c with
  | true => exact taken_word hname
  | false =>
    cases hdigit : c.isDigit with
    | true => exact taken_number hdigit
    | false => exact taken_symbol hname hdigit

/-! ## Digits -/

/-- Only integers are written with digits alone. -/
theorem Lexeme.IsWritten.integer_of_digits (h : l.IsWritten word) (hdigits : Literal.isDigits word = true) :
    ∃ value : Int64, l = .integer value ∧ value.toInt = Literal.digitsValue word := by
  obtain ⟨hne, hall⟩ := isDigits_iff.1 hdigits
  have hname : isName word ≠ true := by
    intro hname
    obtain ⟨c, more, rfl⟩ := List.exists_cons_of_ne_nil hne
    have hstart := isNameStart_of_isDigit (hall c List.mem_cons_self)
    rw [(isName_cons.1 hname).1] at hstart
    cases hstart
  cases h with
  | keyword hkeyword => exact absurd (isName_of_keyword hkeyword) hname
  | ident hisname _ => exact absurd hisname hname
  | symbol hsymbol =>
    have hc := hall _ List.mem_cons_self
    rw [(symbol_kind hsymbol).2] at hc
    cases hc
  | equalsEquals => exact absurd (hall '=' List.mem_cons_self) (by decide)
  | integer _ hvalue => exact ⟨_, rfl, hvalue⟩
  | floating _ _ => exact absurd (hall '.' (by simp)) (by decide)

/-- Digits of a value that is not too large are an integer. -/
theorem isWritten_integer (hdigits : Literal.isDigits word = true)
    (hvalue : Literal.digitsValue word ≤ 2 ^ 63 - 1) :
    ∃ value : Int64, (Lexeme.integer value).IsWritten word :=
  ⟨Int64.ofNat (Literal.digitsValue word), .integer hdigits (Int64.toInt_ofNat_of_lt (by omega))⟩

theorem digitsValue_singleton_le (hc : c.isDigit = true) : Literal.digitsValue [c] ≤ 9 := by
  have hbounds : 48 ≤ c.val ∧ c.val ≤ 57 := by simpa [Char.isDigit] using hc
  have hle : c.toNat ≤ 57 := UInt32.le_iff_toNat_le.1 hbounds.2
  change 10 * 0 + (c.toNat - 48) ≤ 9
  omega

end

end Abacus
