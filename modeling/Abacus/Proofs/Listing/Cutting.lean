import Abacus.Flow.Text
import Abacus.Proofs.Number.Texts
import Abacus.Proofs.Tree.Names

/-!
# Where a text is cut

A text that has been put together can be taken apart again where a mark stands that does not occur in
its parts. The names and numbers of a listing are words, in which none of the marks occurs.

* `cut_first`, `cut_last` — a text is cut at the first or the last mark;
* `commas_injective`, `lines_injective` — texts with commas between them, and lines;
* `groups_injective` — items that stand behind heads;
* `IsWord` — words, with `isWord_intText`, `isWord_floatText` and others for the texts of numbers.
-/

namespace Abacus

/-! ## Marks -/

/-- The character does not occur in the text. -/
def Lacks (mark : Char) (text : String) : Prop := mark ∉ text.toList

instance (mark : Char) (text : String) : Decidable (Lacks mark text) :=
  inferInstanceAs (Decidable (mark ∉ text.toList))

section

variable {mark : Char} {a b x y : String}

@[simp] theorem lacks_append : Lacks mark (a ++ b) ↔ Lacks mark a ∧ Lacks mark b := by
  unfold Lacks
  rw [String.toList_append, List.mem_append, not_or]

theorem lacks_empty : Lacks mark "" := List.not_mem_nil

theorem lacks_join {texts : List String} (h : ∀ text ∈ texts, Lacks mark text) :
    Lacks mark (String.join texts) := by
  unfold Lacks
  rw [String.toList_join]
  intro hmem
  obtain ⟨text, htext, hmark⟩ := List.mem_flatMap.1 hmem
  exact h text htext hmark

/-- A text is cut at the first mark if a separator stands there that begins with the mark. -/
theorem cut_first (separator : String) (hmark : separator.toList.head? = some mark)
    (ha : Lacks mark a) (hb : Lacks mark b) (h : a ++ separator ++ x = b ++ separator ++ y) :
    a = b ∧ x = y := by
  obtain ⟨rest, hseparator⟩ := List.head?_eq_some_iff.1 hmark
  have hlists := congrArg String.toList h
  simp only [String.toList_append, hseparator, List.append_assoc, List.cons_append] at hlists
  have hfront := congrArg (List.takeWhile (· ≠ mark)) hlists
  rw [takeWhile_append_mark ha, takeWhile_append_mark hb] at hfront
  obtain rfl : a = b := String.toList_inj.1 hfront
  rw [String.append_assoc, String.append_assoc, String.append_right_inj, String.append_right_inj] at h
  exact ⟨rfl, h⟩

/-- A text is cut at the last mark if a separator stands there that ends with the mark. -/
theorem cut_last (separator : String) (hmark : separator.toList.getLast? = some mark)
    (hx : Lacks mark x) (hy : Lacks mark y) (h : a ++ separator ++ x = b ++ separator ++ y) :
    a = b ∧ x = y := by
  obtain ⟨front, hseparator⟩ := List.getLast?_eq_some_iff.1 hmark
  have hlists := congrArg (fun text => text.toList.reverse) h
  simp only [String.toList_append, hseparator, List.reverse_append, List.reverse_cons,
    List.append_assoc, List.cons_append, List.nil_append] at hlists
  have hback := congrArg (List.takeWhile (· ≠ mark)) hlists
  have hlacks : ∀ {text : String}, Lacks mark text → mark ∉ text.toList.reverse :=
    fun h hmem => h (List.mem_reverse.1 hmem)
  rw [takeWhile_append_mark (hlacks hx), takeWhile_append_mark (hlacks hy)] at hback
  obtain rfl : x = y := String.toList_inj.1 (List.reverse_injective hback)
  rw [String.append_left_inj, String.append_left_inj] at h
  exact ⟨h, rfl⟩

end

/-! ## Lists -/

namespace Flow

section

variable {α : Type} {text : α → String}

@[simp] theorem commas_cons_cons (first second : String) (rest : List String) :
    commas (first :: second :: rest) = first ++ ", " ++ commas (second :: rest) :=
  String.intercalate_cons_cons

@[simp] theorem commas_singleton (text : String) : commas [text] = text :=
  String.intercalate_singleton

theorem lacks_commas {mark : Char} {texts : List String} (h : ∀ text ∈ texts, Lacks mark text)
    (hmark : Lacks mark ", ") : Lacks mark (commas texts) := by
  induction texts with
  | nil => exact lacks_empty
  | cons first rest ih =>
    have hrest := ih fun t ht => h t (List.mem_cons_of_mem _ ht)
    have hfirst := h first List.mem_cons_self
    cases rest with
    | nil => rwa [commas_singleton]
    | cons second rest =>
      rw [commas_cons_cons, lacks_append, lacks_append]
      exact ⟨⟨hfirst, hmark⟩, hrest⟩

/-- Lists are known from their texts with commas between them if none of these is empty or has a comma. -/
theorem commas_injective (hinjective : Function.Injective text) (hcomma : ∀ a, Lacks ',' (text a))
    (hne : ∀ a, text a ≠ "") : Function.Injective fun l : List α => commas (l.map text) := by
  have hnil : ∀ {a l}, commas ((a :: l).map text) ≠ "" := by
    intro a l h
    cases l with
    | nil => exact hne a h
    | cons b l =>
      rw [List.map_cons, List.map_cons, commas_cons_cons, String.append_assoc,
        String.append_eq_empty_iff] at h
      exact hne a h.1
  -- A comma stands behind the first text if and only if there is a second one.
  have hsingle : ∀ {a b c l}, text a ≠ commas ((b :: c :: l).map text) := by
    intro a b c l h
    have hlacks := h ▸ hcomma a
    rw [List.map_cons, List.map_cons, commas_cons_cons, lacks_append, lacks_append] at hlacks
    exact absurd hlacks.1.2 (by decide)
  intro l₁ l₂ h
  dsimp only at h
  induction l₁ generalizing l₂ with
  | nil =>
    cases l₂ with
    | nil => rfl
    | cons b l₂ => exact absurd h.symm hnil
  | cons a l₁ ih =>
    cases l₂ with
    | nil => exact absurd h hnil
    | cons b l₂ =>
      cases l₁ with
      | nil =>
        cases l₂ with
        | nil => rw [hinjective h]
        | cons c l₂ => exact absurd h hsingle
      | cons a' l₁ =>
        cases l₂ with
        | nil => exact absurd h.symm hsingle
        | cons b' l₂ =>
          rw [List.map_cons, List.map_cons, commas_cons_cons, List.map_cons, List.map_cons,
            commas_cons_cons] at h
          obtain ⟨hfirst, hrest⟩ := cut_first ", " (by decide) (hcomma a) (hcomma b) h
          have htail : a' :: l₁ = b' :: l₂ := ih hrest
          rw [hinjective hfirst, htail]

end

end Flow

/-- Lines are known from the text in which each of them is ended. -/
theorem lines_injective {l₁ l₂ : List String} (h₁ : ∀ line ∈ l₁, Lacks '\n' line)
    (h₂ : ∀ line ∈ l₂, Lacks '\n' line)
    (h : String.join (l₁.map (· ++ "\n")) = String.join (l₂.map (· ++ "\n"))) : l₁ = l₂ := by
  have hne : ∀ {line : String} {l : List String},
      String.join ((line :: l).map (· ++ "\n")) ≠ "" := by
    intro line l h
    rw [List.map_cons, String.join_cons, String.append_eq_empty_iff, String.append_eq_empty_iff] at h
    exact absurd h.1.2 (by decide)
  induction l₁ generalizing l₂ with
  | nil =>
    cases l₂ with
    | nil => rfl
    | cons line l₂ => exact absurd h.symm hne
  | cons line₁ l₁ ih =>
    cases l₂ with
    | nil => exact absurd h hne
    | cons line₂ l₂ =>
      rw [List.forall_mem_cons] at h₁ h₂
      rw [List.map_cons, List.map_cons, String.join_cons, String.join_cons] at h
      obtain ⟨hfirst, hrest⟩ := cut_first "\n" (by decide) h₁.1 h₂.1 h
      rw [hfirst, ih h₁.2 h₂.2 hrest]

/-- Groups are known from the list of their items if the first of a group can be told from the others. -/
theorem groups_injective {α : Type} (isHead : α → Bool) {l₁ l₂ : List (α × List α)}
    (h₁ : ∀ g ∈ l₁, isHead g.1 = true ∧ ∀ a ∈ g.2, isHead a = false)
    (h₂ : ∀ g ∈ l₂, isHead g.1 = true ∧ ∀ a ∈ g.2, isHead a = false)
    (h : l₁.flatMap (fun g => g.1 :: g.2) = l₂.flatMap (fun g => g.1 :: g.2)) : l₁ = l₂ := by
  -- The items of a group reach up to the next head.
  have hitems : ∀ {items : List α} {l : List (α × List α)}, (∀ a ∈ items, isHead a = false) →
      (∀ g ∈ l, isHead g.1 = true ∧ ∀ a ∈ g.2, isHead a = false) →
      (items ++ l.flatMap (fun g => g.1 :: g.2)).takeWhile (fun a => !isHead a) = items := by
    intro items l hitems hl
    rw [List.takeWhile_append_of_pos (by simpa using hitems)]
    cases l with
    | nil => exact List.append_nil _
    | cons g l =>
      rw [List.flatMap_cons, List.cons_append, List.takeWhile_cons_of_neg, List.append_nil]
      rw [(hl g List.mem_cons_self).1]
      decide
  induction l₁ generalizing l₂ with
  | nil =>
    cases l₂ with
    | nil => rfl
    | cons g l₂ => cases h
  | cons g₁ l₁ ih =>
    cases l₂ with
    | nil => cases h
    | cons g₂ l₂ =>
      rw [List.forall_mem_cons] at h₁ h₂
      rw [List.flatMap_cons, List.flatMap_cons, List.cons_append, List.cons_append] at h
      obtain ⟨hhead, hrest⟩ := List.cons.inj h
      have htake := congrArg (List.takeWhile fun a => !isHead a) hrest
      rw [hitems h₁.1.2 h₁.2, hitems h₂.1.2 h₂.2] at htake
      rw [htake] at hrest
      rw [Prod.ext hhead htake, ih h₁.2 h₂.2 (List.append_cancel_left hrest)]

/-! ## Words -/

/-- Letters, digits, underscores, points and minus signs. -/
def isWordPart (c : Char) : Bool := isNamePart c || c = '.' || c = '-'

/-- The text has only characters of words. -/
def IsWord (text : String) : Prop := ∀ c ∈ text.toList, isWordPart c = true

instance (text : String) : Decidable (IsWord text) :=
  decidable_of_iff (text.toList.all isWordPart = true) List.all_eq_true

theorem IsWord.ofName {name : String} (h : IsName name) : IsWord name := by
  intro c hc
  unfold isWordPart
  rw [h c hc]
  rfl

/-- No mark stands in a word. -/
theorem IsWord.lacks {text : String} (h : IsWord text) {mark : Char}
    (hmark : isWordPart mark = false) : Lacks mark text := by
  intro hmem
  rw [h mark hmem] at hmark
  cases hmark

theorem isWordPart_of_isDigit {c : Char} (h : c.isDigit = true) : isWordPart c = true := by
  unfold isWordPart isNamePart Char.isAlphanum
  rw [h]
  simp

theorem isWordPart_of_mem_toDigits {n : ℕ} {c : Char} (h : c ∈ Nat.toDigits 10 n) :
    isWordPart c = true :=
  isWordPart_of_isDigit (Nat.isDigit_of_mem_toDigits (by decide) (by decide) h)

theorem isWord_nat (n : ℕ) : IsWord (toString n) := by
  intro c hc
  rw [show (toString n).toList = Nat.toDigits 10 n from Nat.toList_repr] at hc
  exact isWordPart_of_mem_toDigits hc

theorem IsWord.append {a b : String} (ha : IsWord a) (hb : IsWord b) : IsWord (a ++ b) := by
  intro c hc
  rw [String.toList_append] at hc
  exact (List.mem_append.1 hc).elim (ha c) (hb c)

theorem isWord_int (n : ℤ) : IsWord (toString n) := by
  cases n with
  | ofNat n => exact isWord_nat n
  | negSucc n =>
    have hsign : IsWord "-" := by decide
    exact hsign.append (isWord_nat (n + 1))

theorem isWord_intText (n : Int64) : IsWord (intText n) := isWord_int n.toInt

theorem isWordPart_positional {digits : List Char} (h : ∀ c ∈ digits, isWordPart c = true)
    (point : ℤ) : ∀ c ∈ FloatStyle.positional digits point, isWordPart c = true := by
  have hzero : isWordPart '0' = true := by decide
  have hpoint : isWordPart '.' = true := by decide
  unfold FloatStyle.positional
  grind

theorem isWordPart_scientific {digits : List Char} (h : ∀ c ∈ digits, isWordPart c = true)
    (weight : ℤ) : ∀ c ∈ FloatStyle.listing.scientific digits weight, isWordPart c = true := by
  have hpoint : isWordPart '.' = true := by decide
  have hmark : IsWord FloatStyle.listing.exponentMark := by decide
  have hweight := isWord_int weight
  unfold IsWord at hmark hweight
  unfold FloatStyle.scientific
  grind

/-- The text of a number is a word. -/
theorem isWord_floatText (x : Float) : IsWord (floatText x) := by
  have hmagnitude : ∀ d, ∀ c ∈ FloatStyle.listing.magnitude d, isWordPart c = true := by
    intro d
    have hdigits : ∀ c ∈ (toString d.digits).toList, isWordPart c = true := isWord_nat d.digits
    unfold FloatStyle.magnitude
    dsimp only
    split
    · exact isWordPart_positional hdigits _
    · exact isWordPart_scientific hdigits _
  have hsign : ∀ negative, IsWord (FloatStyle.renderClass.sign negative) := by decide
  unfold floatText FloatStyle.render FloatStyle.renderClass
  split
  · decide
  · exact (hsign _).append (by decide)
  · exact (hsign _).append (by decide)
  · refine (hsign _).append fun c hc => ?_
    rw [String.toList_ofList] at hc
    exact hmagnitude _ c hc

end Abacus
