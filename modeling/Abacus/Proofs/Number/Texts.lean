import Mathlib.Data.List.TakeWhile
import Std.Data.String.ToInt
import Abacus.Number.FloatText
import Abacus.Proofs.Number.Rounding

/-!
# The texts of numbers

The text of a positive decimal, positional or scientific, can be read back. As a double is known from
its shortest decimal, different doubles have different texts. There is one pattern of bits that is not
a number, so this holds of all floating-point numbers.

* `FloatStyle.readMagnitude` — the number that an unsigned text stands for;
* `FloatStyle.readMagnitude_magnitude` — the text of a decimal stands for the decimal;
* `FloatStyle.renderClass_injective` — different classes of doubles have different texts;
* `FloatClass.ofFloat_injective` — different floating-point numbers are of different classes;
* `floatText_injective`, `intText_injective` — different numbers have different texts.
-/

namespace Abacus

/-! ## Marks -/

/-- A text is cut at the first mark. -/
theorem takeWhile_append_mark {mark : Char} {before : List Char} (h : mark ∉ before)
    (after : List Char) : (before ++ mark :: after).takeWhile (· ≠ mark) = before := by
  rw [List.takeWhile_append_of_pos (by grind)]
  simp

theorem dropWhile_append_mark {mark : Char} {before : List Char} (h : mark ∉ before)
    (after : List Char) : (before ++ mark :: after).dropWhile (· ≠ mark) = mark :: after := by
  rw [List.dropWhile_append_of_pos (by grind)]
  simp

theorem takeWhile_of_not_mem {mark : Char} {text : List Char} (h : mark ∉ text) :
    text.takeWhile (· ≠ mark) = text := by
  rw [List.takeWhile_eq_self_iff]
  grind

theorem dropWhile_of_not_mem {mark : Char} {text : List Char} (h : mark ∉ text) :
    text.dropWhile (· ≠ mark) = [] := by
  rw [List.dropWhile_eq_nil_iff]
  grind

theorem not_mem_of_digits {digits : List Char} (h : ∀ c ∈ digits, c.isDigit) {mark : Char}
    (hmark : mark.isDigit = false) : mark ∉ digits := by
  intro hmem
  rw [h mark hmem] at hmark
  cases hmark

/-! ## Reading back -/

namespace FloatStyle

/-- The value of digits with at most one point, and the number of digits behind the point. -/
def readMantissa (text : List Char) : ℕ × ℕ :=
  let whole := text.takeWhile (· ≠ '.')
  let fraction := (text.dropWhile (· ≠ '.')).tail
  (Nat.ofDigitChars 10 (whole ++ fraction) 0, fraction.length)

/-- The number that an unsigned text stands for: a mantissa, and what follows an `e` is an
exponent. -/
def readMagnitude (text : List Char) : ℚ :=
  let mantissa := readMantissa (text.takeWhile (· ≠ 'e'))
  let exponent : ℤ := match text.dropWhile (· ≠ 'e') with
    | [] => 0
    | _ :: digits => (String.ofList digits).toInt?.getD 0
  mantissa.1 * 10 ^ (exponent - mantissa.2)

theorem readMantissa_point {whole : List Char} (hwhole : ∀ c ∈ whole, c.isDigit)
    (fraction : List Char) : readMantissa (whole ++ '.' :: fraction)
      = (Nat.ofDigitChars 10 (whole ++ fraction) 0, fraction.length) := by
  have hpoint : '.' ∉ whole := not_mem_of_digits hwhole (by decide)
  unfold readMantissa
  rw [takeWhile_append_mark hpoint, dropWhile_append_mark hpoint]
  rfl

theorem readMantissa_digits {digits : List Char} (hdigits : ∀ c ∈ digits, c.isDigit) :
    readMantissa digits = (Nat.ofDigitChars 10 digits 0, 0) := by
  have hpoint : '.' ∉ digits := not_mem_of_digits hdigits (by decide)
  unfold readMantissa
  rw [takeWhile_of_not_mem hpoint, dropWhile_of_not_mem hpoint]
  simp

theorem readMagnitude_positional {text : List Char} (htext : 'e' ∉ text) :
    readMagnitude text = (readMantissa text).1 * 10 ^ (-(readMantissa text).2 : ℤ) := by
  unfold readMagnitude
  rw [takeWhile_of_not_mem htext, dropWhile_of_not_mem htext]
  simp

theorem readMagnitude_scientific {text : List Char} (htext : 'e' ∉ text) (exponent : ℤ) :
    readMagnitude (text ++ 'e' :: (toString exponent).toList)
      = (readMantissa text).1 * 10 ^ (exponent - (readMantissa text).2 : ℤ) := by
  have hread : (toString exponent).toInt? = some exponent := Int.toInt?_repr exponent
  unfold readMagnitude
  rw [takeWhile_append_mark htext, dropWhile_append_mark htext]
  dsimp only
  rw [String.ofList_toList, hread, Option.getD_some]

theorem ofDigitChars_zeros_append (n : ℕ) (digits : List Char) :
    Nat.ofDigitChars 10 ('0' :: (List.replicate n '0' ++ digits)) 0
      = Nat.ofDigitChars 10 digits 0 := by
  rw [← List.cons_append, ← List.replicate_succ, Nat.ofDigitChars_append,
    Nat.ofDigitChars_replicate_zero, mul_zero]

theorem ofDigitChars_append_zeros (n : ℕ) (digits : List Char) :
    Nat.ofDigitChars 10 (digits ++ List.replicate n '0') 0
      = 10 ^ n * Nat.ofDigitChars 10 digits 0 := by
  rw [Nat.ofDigitChars_append, Nat.ofDigitChars_replicate_zero]

/-- A positional text stands for `0.d₁d₂… · 10 ^ point`. -/
theorem readMagnitude_positional_text {digits : List Char} (hdigits : ∀ c ∈ digits, c.isDigit)
    (point : ℤ) : readMagnitude (positional digits point)
      = Nat.ofDigitChars 10 digits 0 * 10 ^ (point - digits.length) := by
  have hzeros : ∀ n, ∀ c ∈ List.replicate n '0', c.isDigit := by
    intro n c hc
    rw [List.eq_of_mem_replicate hc]
    decide
  have hplain : ∀ whole fraction : List Char, (∀ c ∈ whole, c.isDigit) →
      (∀ c ∈ fraction, c.isDigit) → readMagnitude (whole ++ '.' :: fraction)
        = Nat.ofDigitChars 10 (whole ++ fraction) 0 * 10 ^ (-fraction.length : ℤ) := by
    intro whole fraction hwhole hfraction
    have he : 'e' ∉ whole ++ '.' :: fraction := by
      have hleft : 'e' ∉ whole := not_mem_of_digits hwhole (by decide)
      have hright : 'e' ∉ fraction := not_mem_of_digits hfraction (by decide)
      grind
    rw [readMagnitude_positional he, readMantissa_point hwhole]
  unfold positional
  split
  · next hpoint =>
    have hfraction : ∀ c ∈ List.replicate (-point).toNat '0' ++ digits, c.isDigit := by
      intro c hc
      rcases List.mem_append.1 hc with hc | hc
      · exact hzeros _ c hc
      · exact hdigits c hc
    have hsplit := hplain ['0'] (List.replicate (-point).toNat '0' ++ digits) (by simp) hfraction
    rw [List.cons_append, List.nil_append] at hsplit
    rw [hsplit, List.cons_append, List.nil_append, ofDigitChars_zeros_append, List.length_append,
      List.length_replicate]
    congr 2
    omega
  · next hpoint =>
    dsimp only
    split
    · next hshort =>
      have hwhole : ∀ c ∈ digits ++ List.replicate (point.toNat - digits.length) '0', c.isDigit := by
        intro c hc
        rcases List.mem_append.1 hc with hc | hc
        · exact hdigits c hc
        · exact hzeros _ c hc
      rw [hplain _ ['0'] hwhole (by simp), List.append_assoc, ← List.replicate_succ', ofDigitChars_append_zeros]
      push_cast
      rw [mul_comm ((10 : ℚ) ^ _), mul_assoc, ← zpow_natCast, ← zpow_add₀ (by norm_num)]
      congr 2
      rw [List.length_singleton]
      omega
    · next hlong =>
      rw [hplain _ _ (fun c hc => hdigits c (List.mem_of_mem_take hc))
        (fun c hc => hdigits c (List.mem_of_mem_drop hc)), List.take_append_drop, List.length_drop]
      congr 2
      omega

/-- A scientific text stands for `d₁.d₂… · 10 ^ weight`. -/
theorem readMagnitude_scientific_text {digits : List Char} (hdigits : ∀ c ∈ digits, c.isDigit)
    (hne : digits ≠ []) (weight : ℤ) : readMagnitude (listing.scientific digits weight)
      = Nat.ofDigitChars 10 digits 0 * 10 ^ (weight + 1 - digits.length) := by
  have hmark : listing.exponentMark.toList ++ (toString weight).toList
      = 'e' :: (toString weight).toList := rfl
  unfold scientific
  rw [List.append_assoc, hmark]
  match digits, hne with
  | [first], _ =>
    have he : 'e' ∉ [first] := not_mem_of_digits hdigits (by decide)
    have hread := readMagnitude_scientific he weight
    rw [readMantissa_digits hdigits] at hread
    rw [hread, List.length_singleton]
    congr 2
    push_cast
    ring
  | first :: next :: rest, _ =>
    have hfirst : ∀ c ∈ [first], c.isDigit :=
      fun c hc => hdigits c (List.mem_singleton.1 hc ▸ List.mem_cons_self)
    have hrest : ∀ c ∈ next :: rest, c.isDigit := fun c hc => hdigits c (List.mem_cons_of_mem _ hc)
    have he : 'e' ∉ [first] ++ '.' :: next :: rest := by
      have hleft : 'e' ∉ [first] := not_mem_of_digits hfirst (by decide)
      have hright : 'e' ∉ next :: rest := not_mem_of_digits hrest (by decide)
      grind
    have hread := readMagnitude_scientific he weight
    rw [readMantissa_point hfirst, List.singleton_append, List.singleton_append] at hread
    rw [hread]
    simp only [List.length_cons]
    congr 2
    push_cast
    ring

/-- The text of a decimal stands for the decimal. -/
theorem readMagnitude_magnitude (d : Decimal) : readMagnitude (listing.magnitude d) = d.value := by
  have hdigits : (toString d.digits).toList = Nat.toDigits 10 d.digits := Nat.toList_repr
  have hall : ∀ c ∈ Nat.toDigits 10 d.digits, c.isDigit :=
    fun c hc => Nat.isDigit_of_mem_toDigits (by decide) (by decide) hc
  unfold magnitude
  rw [hdigits]
  dsimp only
  split
  · rw [readMagnitude_positional_text hall, Nat.ofDigitChars_ten_toDigits, add_sub_cancel_right]
    rfl
  · rw [readMagnitude_scientific_text hall Nat.toDigits_ne_nil, Nat.ofDigitChars_ten_toDigits,
      sub_add_cancel, add_sub_cancel_right]
    rfl

/-! ## Different numbers -/

/-- The text of a decimal begins with a digit. -/
theorem magnitude_head (d : Decimal) :
    ∃ c rest, listing.magnitude d = c :: rest ∧ c.isDigit = true := by
  have hdigits : (toString d.digits).toList = Nat.toDigits 10 d.digits := Nat.toList_repr
  have hall : ∀ c ∈ Nat.toDigits 10 d.digits, c.isDigit :=
    fun c hc => Nat.isDigit_of_mem_toDigits (by decide) (by decide) hc
  obtain ⟨first, rest, hfirst⟩ :=
    List.exists_cons_of_ne_nil (Nat.toDigits_ne_nil (n := d.digits) (b := 10))
  have hdigit : first.isDigit = true := hall first (hfirst ▸ List.mem_cons_self)
  unfold magnitude
  rw [hdigits, hfirst]
  dsimp only
  split
  · unfold positional
    split
    · exact ⟨'0', _, rfl, by decide⟩
    · next hpoint =>
      obtain ⟨n, hn⟩ : ∃ n, (d.exponent + (first :: rest).length).toNat = n + 1 :=
        ⟨_, (Nat.succ_pred_eq_of_pos (by omega)).symm⟩
      dsimp only
      rw [hn, List.take_succ_cons]
      split
      · exact ⟨first, _, rfl, hdigit⟩
      · exact ⟨first, _, rfl, hdigit⟩
  · unfold scientific
    cases rest with
    | nil => exact ⟨first, _, rfl, hdigit⟩
    | cons next rest => exact ⟨first, _, rfl, hdigit⟩

end FloatStyle

namespace FloatClass

/-- The magnitude of a finite number is one of the format. -/
def IsDouble : FloatClass → Prop
  | .finite _ d => d.IsDouble
  | .nan | .infinite _ | .zero _ => True

/-- Is a sign written? -/
def signed : FloatClass → Bool
  | .nan => false
  | .infinite negative | .zero negative | .finite negative _ => negative

/-- What is written behind the sign. -/
def unsignedText : FloatClass → List Char
  | .nan => ['N', 'a', 'N']
  | .infinite _ => ['i', 'n', 'f']
  | .zero _ => ['0', '.', '0']
  | .finite _ d => FloatStyle.listing.magnitude (Decimal.shortest d)

theorem toList_renderClass (c : FloatClass) : (FloatStyle.listing.renderClass c).toList
    = (if c.signed then ['-'] else []) ++ c.unsignedText := by
  cases c with
  | nan => rfl
  | infinite negative => cases negative <;> rfl
  | zero negative => cases negative <;> rfl
  | finite negative d =>
    unfold FloatStyle.renderClass
    rw [String.toList_append, String.toList_ofList]
    cases negative <;> rfl

/-- No text begins with two signs. -/
theorem head_unsignedText (c : FloatClass) : c.unsignedText.head? ≠ some '-' := by
  cases c with
  | nan | infinite negative | zero negative => exact nofun
  | finite negative d =>
    obtain ⟨first, rest, htext, hdigit⟩ := FloatStyle.magnitude_head (Decimal.shortest d)
    show (FloatStyle.listing.magnitude (Decimal.shortest d)).head? ≠ some '-'
    rw [htext]
    rintro ⟨⟩
    cases hdigit

/-- The text behind the sign, with the sign, says which number it is. -/
theorem eq_of_unsignedText {c₁ c₂ : FloatClass} (h₁ : c₁.IsDouble) (h₂ : c₂.IsDouble)
    (hsigned : c₁.signed = c₂.signed) (htext : c₁.unsignedText = c₂.unsignedText) : c₁ = c₂ := by
  -- the text of a finite number begins with a digit and does not stand for zero
  have hdigit : ∀ {negative d}, (unsignedText (.finite negative d)).head? ≠ some 'N' ∧
      (unsignedText (.finite negative d)).head? ≠ some 'i' := by
    intro negative d
    obtain ⟨first, rest, htext, hdigit⟩ := FloatStyle.magnitude_head (Decimal.shortest d)
    show (FloatStyle.listing.magnitude (Decimal.shortest d)).head? ≠ some 'N' ∧
      (FloatStyle.listing.magnitude (Decimal.shortest d)).head? ≠ some 'i'
    rw [htext]
    constructor <;> (rintro ⟨⟩; cases hdigit)
  have hnonzero : ∀ {negative d}, IsDouble (.finite negative d) →
      unsignedText (.finite negative d) ≠ ['0', '.', '0'] := by
    intro negative d hd htext
    have hread := FloatStyle.readMagnitude_magnitude (Decimal.shortest d)
    rw [show FloatStyle.listing.magnitude (Decimal.shortest d) = ['0', '.', '0'] from htext] at hread
    have hzero : FloatStyle.readMagnitude ['0', '.', '0'] = 0 := by
      rw [FloatStyle.readMagnitude_positional (by decide)]
      have hvalue : (FloatStyle.readMantissa ['0', '.', '0']).1 = 0 := by decide
      rw [hvalue, Nat.cast_zero, zero_mul]
    have hpos := hd.rounds_shortest.pos hd.pos
    rw [← hread, hzero] at hpos
    exact lt_irrefl _ hpos
  cases c₁ <;> cases c₂
  case finite.finite n₁ d₁ n₂ d₂ =>
    obtain rfl : n₁ = n₂ := hsigned
    have hvalue : (Decimal.shortest d₁).value = (Decimal.shortest d₂).value := by
      rw [← FloatStyle.readMagnitude_magnitude, ← FloatStyle.readMagnitude_magnitude]
      exact congrArg FloatStyle.readMagnitude htext
    rw [Dyadic.IsDouble.eq_of_shortest h₁ h₂ hvalue]
  case nan.nan => rfl
  case infinite.infinite => exact congrArg infinite hsigned
  case zero.zero => exact congrArg zero hsigned
  case finite.nan => exact absurd (congrArg List.head? htext) hdigit.1
  case nan.finite => exact absurd (congrArg List.head? htext.symm) hdigit.1
  case finite.infinite => exact absurd (congrArg List.head? htext) hdigit.2
  case infinite.finite => exact absurd (congrArg List.head? htext.symm) hdigit.2
  case finite.zero => exact absurd htext (hnonzero h₁)
  case zero.finite => exact absurd htext.symm (hnonzero h₂)
  all_goals cases htext

end FloatClass

namespace FloatStyle

/-- Different classes of doubles have different texts. -/
theorem renderClass_injective {c₁ c₂ : FloatClass} (h₁ : c₁.IsDouble) (h₂ : c₂.IsDouble)
    (h : listing.renderClass c₁ = listing.renderClass c₂) : c₁ = c₂ := by
  have hlists := congrArg String.toList h
  rw [FloatClass.toList_renderClass, FloatClass.toList_renderClass] at hlists
  have hhead₁ := c₁.head_unsignedText
  have hhead₂ := c₂.head_unsignedText
  cases hs₁ : c₁.signed <;> cases hs₂ : c₂.signed <;> rw [hs₁, hs₂] at hlists
  · exact FloatClass.eq_of_unsignedText h₁ h₂ (hs₁.trans hs₂.symm) hlists
  · rw [show c₁.unsignedText = '-' :: c₂.unsignedText from hlists] at hhead₁
    exact absurd rfl hhead₁
  · rw [show c₂.unsignedText = '-' :: c₁.unsignedText from hlists.symm] at hhead₂
    exact absurd rfl hhead₂
  · exact FloatClass.eq_of_unsignedText h₁ h₂ (hs₁.trans hs₂.symm) (List.tail_eq_of_cons_eq hlists)

end FloatStyle

namespace FloatClass

/-! ## Classes of floating-point numbers -/

/-- The fields of a number give a number of the format. -/
theorem isDouble_ofFields (negative : Bool) {exponent fraction : ℕ} (hexponent : exponent < 2 ^ 11)
    (hfraction : fraction < 2 ^ 52) : (ofFields negative exponent fraction).IsDouble := by
  unfold ofFields lowestExponent
  split
  · split <;> trivial
  · split
    · split
      · trivial
      · constructor <;> grind
    · constructor <;> grind

theorem isDouble_ofFloat (x : Float) : (ofFloat x).IsDouble :=
  isDouble_ofFields _ (Nat.mod_lt _ (by decide)) (Nat.mod_lt _ (by decide))

/-- The fields of what is a number are known from its class. -/
theorem ofFields_injective {n₁ n₂ : Bool} {e₁ e₂ f₁ f₂ : ℕ} (hf₁ : f₁ < 2 ^ 52) (hf₂ : f₂ < 2 ^ 52)
    (h : ofFields n₁ e₁ f₁ = ofFields n₂ e₂ f₂) (hnan : ofFields n₁ e₁ f₁ ≠ .nan) :
    n₁ = n₂ ∧ e₁ = e₂ ∧ f₁ = f₂ := by
  unfold ofFields lowestExponent at h hnan
  grind

/-- There is one pattern of bits that is not a number. -/
theorem toBits_of_nan {x : Float} (h : ofFloat x = .nan) :
    x.toBits.toBitVec = Float.Model.UnpackedFloat.packedNaN .binary64 := by
  have hfields : x.toModel.toBits.toNat / 2 ^ 52 % 2 ^ 11 = 2047 ∧
      x.toModel.toBits.toNat % 2 ^ 52 ≠ 0 := by
    unfold ofFloat ofFields Float.toBits at h
    grind
  apply x.toModel.valid.eq_packedNaN
  · apply BitVec.eq_of_toNat_eq
    simpa [Float.Model.UnpackedFloat.unpackExponent, Nat.shiftRight_eq_div_pow] using hfields.1
  · intro hzero
    have hzero := congrArg BitVec.toNat hzero
    refine hfields.2 ?_
    simpa [Float.Model.UnpackedFloat.unpackMantissa] using hzero

/-- Different floating-point numbers are of different classes. -/
theorem ofFloat_injective : Function.Injective ofFloat := by
  intro x y h
  have hbits : x.toBits.toBitVec = y.toBits.toBitVec := by
    by_cases hnan : ofFloat x = .nan
    · rw [toBits_of_nan hnan, toBits_of_nan (h ▸ hnan)]
    · apply BitVec.eq_of_toNat_eq
      have hfields := ofFields_injective (Nat.mod_lt _ (by decide)) (Nat.mod_lt _ (by decide)) h hnan
      have hx := x.toBits.toNat_lt
      have hy := y.toBits.toNat_lt
      simp only [decide_eq_decide] at hfields
      simp only [UInt64.toNat_toBitVec]
      omega
  have hmodels : x.toModel = y.toModel := by
    have hequal : x.toModel.toBits = y.toModel.toBits := UInt64.toBitVec_inj.1 hbits
    generalize x.toModel = mx at hequal ⊢
    generalize y.toModel = my at hequal ⊢
    cases mx
    cases my
    cases hequal
    rfl
  cases x
  cases y
  exact congrArg Float.ofModel hmodels

end FloatClass

/-- Different floating-point numbers have different texts. -/
theorem floatText_injective : Function.Injective floatText := fun x y h =>
  FloatClass.ofFloat_injective
    (FloatStyle.renderClass_injective (FloatClass.isDouble_ofFloat x) (FloatClass.isDouble_ofFloat y) h)

/-- Different integers have different texts. -/
theorem intText_injective : Function.Injective intText :=
  fun _ _ h => Int64.toInt_inj.1 (Int.repr_injective h)

end Abacus
