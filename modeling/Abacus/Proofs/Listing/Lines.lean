import Abacus.Proofs.Listing.Legible

/-!
# The lines of a listing

A line has a value on its left or none, then an opcode, then the operands that belong to the opcode.
No keyword of an opcode is the beginning of another, so the opcode is known from the line, and then the
operands are known from the rest.

* `Opcode`, `Opcode.Operands`, `Line` — what is said in a line;
* `Opcode.keyword_prefix_free`, `Opcode.operandsText_injective` — its two parts;
* `Line.text_injective` — different lines have different texts;
* `valueText_injective`, `terminatorText_injective` — the lines of legible functions.
-/

namespace Abacus.Flow

/-- What a line is about: an instruction, or the end of a block. -/
inductive Opcode where
  | intConst
  | floatConst
  | param
  | intArith (op : Arith)
  | floatArith (op : Arith)
  | intCompare (op : Compare)
  | floatCompare (op : Compare)
  | boolToInt
  | intToFloat
  | floatToInt
  | phi (ty : Ty)
  | call (ty : Ty)
  | faultAlloc
  | landingPad
  | faultSelector
  | faultTypeId
  | beginCatch
  | reportFault
  | endCatch
  | callUnexpected
  | jump
  | branch
  | ret
  | invoke (ty : Ty)
  | raise
  | resume
  | unreachable
  deriving DecidableEq

namespace Opcode

/-! ## Keywords -/

/-- The beginning of a line, up to the first operand. -/
def keyword : Opcode → String
  | intConst => "iconst "
  | floatConst => "fconst "
  | param => "param "
  | intArith op => op.text ++ " i64 "
  | floatArith op => "f" ++ op.text ++ " f64 "
  | intCompare op => "icmp " ++ op.text ++ " i64 "
  | floatCompare op => "fcmp " ++ op.text ++ " f64 "
  | boolToInt => "zext bool "
  | intToFloat => "sitofp i64 "
  | floatToInt => "fptosi f64 "
  | phi ty => "phi " ++ ty.text
  | call ty => "call " ++ ty.text ++ " "
  | faultAlloc => "fault.alloc "
  | landingPad => "landingpad"
  | faultSelector => "fault.selector "
  | faultTypeId => "fault.typeid "
  | beginCatch => "fault.begin_catch "
  | reportFault => "fault.report "
  | endCatch => "fault.end_catch"
  | callUnexpected => "fault.unexpected "
  | jump => "jump "
  | branch => "br "
  | ret => "ret "
  | invoke ty => "invoke " ++ ty.text ++ " "
  | raise => "fault.raise "
  | resume => "resume "
  | unreachable => "unreachable"

/-- All opcodes. -/
def all : List Opcode :=
  [intConst, floatConst, param, boolToInt, intToFloat, floatToInt, faultAlloc, landingPad,
    faultSelector, faultTypeId, beginCatch, reportFault, endCatch, callUnexpected, jump, branch, ret,
    raise, resume, unreachable] ++
  [Arith.add, .sub, .mul, .div].flatMap (fun op => [intArith op, floatArith op]) ++
  [Compare.less, .greater, .equal, .notEqual].flatMap (fun op => [intCompare op, floatCompare op]) ++
  [Ty.int, .float, .bool, .fault, .unit].flatMap fun ty => [phi ty, call ty, invoke ty]

theorem mem_all (o : Opcode) : o ∈ all := by
  cases o with
  | intArith op | floatArith op | intCompare op | floatCompare op => cases op <;> decide
  | phi ty | call ty | invoke ty => cases ty <;> decide
  | _ => decide

/-- No keyword is the beginning of another. -/
theorem keyword_prefix_free {o₁ o₂ : Opcode} (h : o₁.keyword.toList <+: o₂.keyword.toList) :
    o₁ = o₂ := by
  have hall : ∀ o₁ ∈ all, ∀ o₂ ∈ all, o₁.keyword.toList <+: o₂.keyword.toList → o₁ = o₂ := by
    decide +kernel
  exact hall o₁ (mem_all o₁) o₂ (mem_all o₂) h

/-- A keyword is known from any text that begins with it. -/
theorem eq_of_keyword_append {o₁ o₂ : Opcode} {x y : String}
    (h : o₁.keyword ++ x = o₂.keyword ++ y) : o₁ = o₂ := by
  have hlists := congrArg String.toList h
  rw [String.toList_append, String.toList_append] at hlists
  rcases List.prefix_or_prefix_of_prefix (List.prefix_append _ _) ⟨_, hlists.symm⟩ with h | h
  · exact keyword_prefix_free h
  · exact (keyword_prefix_free h).symm

/-- No keyword begins like a value. -/
theorem keyword_ne_value (o : Opcode) (x y : String) : o.keyword ++ x ≠ "%" ++ y := by
  have hall : ∀ o ∈ all, o.keyword.toList.head?.any (· ≠ '%') = true := by decide +kernel
  obtain ⟨c, hc, hne⟩ : ∃ c, o.keyword.toList.head? = some c ∧ c ≠ '%' := by
    simpa [Option.any_eq_true] using hall o (mem_all o)
  intro h
  have hheads := congrArg (fun text => text.toList.head?) h
  rw [String.toList_append, String.toList_append, List.head?_append, hc] at hheads
  exact hne (Option.some.inj hheads)

end Opcode

/-! ## Operands -/

theorem Value.text_injective : Function.Injective Value.text := by
  rintro ⟨i⟩ ⟨j⟩ h
  unfold Value.text at h
  rw [String.append_right_inj] at h
  obtain rfl : i = j := Nat.repr_injective h
  rfl

theorem Block.text_injective : Function.Injective Block.text := by
  rintro ⟨i⟩ ⟨j⟩ h
  unfold Block.text at h
  rw [String.append_right_inj] at h
  obtain rfl : i = j := Nat.repr_injective h
  rfl

theorem Value.text_lacks (v : Value) {mark : Char} (hmark : isWordPart mark = false)
    (hpercent : Lacks mark "%") : Lacks mark v.text := by
  unfold Value.text
  rw [lacks_append]
  exact ⟨hpercent, (isWord_nat _).lacks hmark⟩

theorem Block.isWord_text (b : Block) : IsWord b.text := by
  have hname : IsWord "bb" := by decide
  exact hname.append (isWord_nat _)

theorem Ty.isWord_text (ty : Ty) : IsWord ty.text := by cases ty <;> decide

theorem Ty.text_injective : Function.Injective Ty.text := by
  intro s t
  cases s <;> cases t <;> decide

/-- The text of an operand of a phi. -/
def operandText (p : Block × Value) : String := "[" ++ p.1.text ++ ": " ++ p.2.text ++ "]"

theorem operandText_injective : Function.Injective operandText := by
  rintro ⟨b, v⟩ ⟨c, w⟩ h
  unfold operandText at h
  rw [String.append_left_inj] at h
  have hlacks : ∀ b : Block, Lacks ':' ("[" ++ b.text) :=
    fun b => lacks_append.2 ⟨by decide, b.isWord_text.lacks (by decide)⟩
  obtain ⟨hblock, hvalue⟩ := cut_first ": " (by decide) (hlacks b) (hlacks c) h
  rw [String.append_right_inj] at hblock
  exact Prod.ext (Block.text_injective hblock) (Value.text_injective hvalue)

theorem operandText_lacks (p : Block × Value) : Lacks ',' (operandText p) := by
  unfold operandText
  simp only [lacks_append]
  exact ⟨⟨⟨⟨by decide, p.1.isWord_text.lacks (by decide)⟩, by decide⟩,
    p.2.text_lacks (by decide) (by decide)⟩, by decide⟩

theorem operands_injective :
    Function.Injective fun ps : List (Block × Value) => commas (ps.map operandText) :=
  commas_injective operandText_injective operandText_lacks
    fun p h => absurd (String.append_eq_empty_iff.1 h).2 (by decide)

theorem values_injective : Function.Injective fun vs : List Value => commas (vs.map Value.text) :=
  commas_injective Value.text_injective (fun v => v.text_lacks (by decide) (by decide))
    fun v h => absurd (String.append_eq_empty_iff.1 h).1 (by decide)

theorem blocks_injective : Function.Injective fun bs : List Block => commas (bs.map Block.text) :=
  commas_injective Block.text_injective (fun b => b.isWord_text.lacks (by decide))
    fun b h => absurd (String.append_eq_empty_iff.1 h).1 (by decide)

theorem types_injective : Function.Injective fun ts : List Ty => commas (ts.map Ty.text) :=
  commas_injective Ty.text_injective (fun ty => ty.isWord_text.lacks (by decide))
    fun ty => by cases ty <;> decide

/-- The list is known from its text if nothing is written of an empty one. -/
theorem optional_injective {α : Type} {text : α → String} (lead : String) (hlead : lead ≠ "")
    (h : Function.Injective fun l : List α => commas (l.map text)) :
    Function.Injective fun l : List α =>
      if (l.map text).isEmpty then "" else lead ++ commas (l.map text) := by
  have hne : ∀ text : String, lead ++ text ≠ "" :=
    fun text htext => hlead (String.append_eq_empty_iff.1 htext).1
  intro l₁ l₂ htexts
  dsimp only at htexts
  cases l₁ with
  | nil =>
    cases l₂ with
    | nil => rfl
    | cons a l₂ => exact absurd htexts.symm (hne _)
  | cons a l₁ =>
    cases l₂ with
    | nil => exact absurd htexts (hne _)
    | cons b l₂ => exact h ((String.append_right_inj lead).1 htexts)

/-- A text that is a word. -/
abbrev Word := {text : String // IsWord text}

theorem callText_injective {callee₁ callee₂ : Word} {arguments₁ arguments₂ : List Value}
    (h : callText callee₁.1 arguments₁ = callText callee₂.1 arguments₂) :
    (callee₁, arguments₁) = (callee₂, arguments₂) := by
  unfold callText at h
  rw [String.append_left_inj] at h
  have hlacks : ∀ callee : Word, Lacks '(' ("@" ++ callee.1) :=
    fun callee => lacks_append.2 ⟨by decide, callee.2.lacks (by decide)⟩
  obtain ⟨hcallee, harguments⟩ := cut_first "(" (by decide) (hlacks callee₁) (hlacks callee₂) h
  rw [String.append_right_inj] at hcallee
  exact Prod.ext (Subtype.ext hcallee) (values_injective harguments)

/-- The text of the operands of a phi; nothing is written if there are none. -/
def phiText (incoming : List (Block × Value)) : String :=
  if (incoming.map operandText).isEmpty then "" else " " ++ commas (incoming.map operandText)

theorem phiText_injective : Function.Injective phiText :=
  optional_injective " " (by decide) operands_injective

namespace Opcode

/-- The operands that belong to an opcode. -/
def Operands : Opcode → Type
  | intConst | faultTypeId => Int64
  | floatConst => Float
  | param => Nat
  | intArith _ | floatArith _ | intCompare _ | floatCompare _ => Value × Value
  | boolToInt | intToFloat | floatToInt | faultSelector | beginCatch | reportFault | callUnexpected
  | ret | raise | resume => Value
  | phi _ => List (Block × Value)
  | call _ => Word × List Value
  | faultAlloc => Int64 × Int64
  | landingPad | endCatch | unreachable => Unit
  | jump => Block
  | branch => Value × Block × Block
  | invoke _ => (Word × List Value) × Block × Block

/-- The text of the operands. -/
def operandsText : (o : Opcode) → o.Operands → String
  | intConst, n | faultTypeId, n => intText n
  | floatConst, x => floatText x
  | param, index => Nat.repr index
  | intArith _, (lhs, rhs) | floatArith _, (lhs, rhs) | intCompare _, (lhs, rhs)
  | floatCompare _, (lhs, rhs) => Inst.text.pair lhs rhs
  | boolToInt, v | floatToInt, v => Value.text v ++ " to i64"
  | intToFloat, v => Value.text v ++ " to f64"
  | faultSelector, v | beginCatch, v | reportFault, v | callUnexpected, v | ret, v | raise, v
  | resume, v => Value.text v
  | phi _, incoming => phiText incoming
  | call _, (callee, arguments) => callText callee.1 arguments
  | faultAlloc, (code, typeId) => intText code ++ ", type " ++ intText typeId
  | landingPad, _ | endCatch, _ | unreachable, _ => ""
  | jump, dest => Block.text dest
  | branch, (condition, thenDest, elseDest) =>
    commas [condition.text, thenDest.text, elseDest.text]
  | invoke _, ((callee, arguments), normal, unwind) =>
    callText callee.1 arguments ++ " to " ++ normal.text ++ " unwind " ++ unwind.text

theorem pair_injective {lhs₁ rhs₁ lhs₂ rhs₂ : Value}
    (h : Inst.text.pair lhs₁ rhs₁ = Inst.text.pair lhs₂ rhs₂) : (lhs₁, rhs₁) = (lhs₂, rhs₂) := by
  have hlacks : ∀ v : Value, Lacks ',' v.text := fun v => v.text_lacks (by decide) (by decide)
  obtain ⟨hlhs, hrhs⟩ := cut_first ", " (by decide) (hlacks lhs₁) (hlacks lhs₂) h
  exact Prod.ext (Value.text_injective hlhs) (Value.text_injective hrhs)

theorem branch_injective {condition₁ condition₂ : Value} {then₁ else₁ then₂ else₂ : Block}
    (h : commas [condition₁.text, then₁.text, else₁.text]
      = commas [condition₂.text, then₂.text, else₂.text]) :
    (condition₁, then₁, else₁) = (condition₂, then₂, else₂) := by
  have hvalue : ∀ v : Value, Lacks ',' v.text := fun v => v.text_lacks (by decide) (by decide)
  have hblock : ∀ b : Block, Lacks ',' b.text := fun b => b.isWord_text.lacks (by decide)
  simp only [commas_cons_cons, commas_singleton] at h
  obtain ⟨hcondition, h⟩ := cut_first ", " (by decide) (hvalue _) (hvalue _) h
  obtain ⟨hthen, helse⟩ := cut_first ", " (by decide) (hblock _) (hblock _) h
  rw [Value.text_injective hcondition, Block.text_injective hthen, Block.text_injective helse]

theorem invoke_injective {call₁ call₂ : Word × List Value} {normal₁ unwind₁ normal₂ unwind₂ : Block}
    (h : callText call₁.1 call₁.2 ++ " to " ++ normal₁.text ++ " unwind " ++ unwind₁.text
      = callText call₂.1 call₂.2 ++ " to " ++ normal₂.text ++ " unwind " ++ unwind₂.text) :
    (call₁, normal₁, unwind₁) = (call₂, normal₂, unwind₂) := by
  have hdest : ∀ b : Block, Lacks ' ' b.text := fun b => b.isWord_text.lacks (by decide)
  obtain ⟨h, hunwind⟩ := cut_last " unwind " (by decide) (hdest unwind₁) (hdest unwind₂) h
  obtain ⟨h, hnormal⟩ := cut_last " to " (by decide) (hdest normal₁) (hdest normal₂) h
  exact Prod.ext (callText_injective h)
    (Prod.ext (Block.text_injective hnormal) (Block.text_injective hunwind))

/-- The operands are known from their text. -/
theorem operandsText_injective (o : Opcode) : Function.Injective o.operandsText := by
  intro p q h
  cases o with
  | intConst | faultTypeId => exact intText_injective h
  | floatConst => exact floatText_injective h
  | param => exact Nat.repr_injective h
  | intArith | floatArith | intCompare | floatCompare => exact pair_injective h
  | boolToInt | floatToInt => exact Value.text_injective ((String.append_left_inj " to i64").1 h)
  | intToFloat => exact Value.text_injective ((String.append_left_inj " to f64").1 h)
  | faultSelector | beginCatch | reportFault | callUnexpected | ret | raise | resume =>
    exact Value.text_injective h
  | phi => exact phiText_injective h
  | call => exact callText_injective h
  | faultAlloc =>
    have hlacks : ∀ n, Lacks ',' (intText n) := fun n => (isWord_intText n).lacks (by decide)
    obtain ⟨hcode, htype⟩ := cut_first ", type " (by decide) (hlacks p.1) (hlacks q.1) h
    exact Prod.ext (intText_injective hcode) (intText_injective htype)
  | landingPad | endCatch | unreachable => rfl
  | jump => exact Block.text_injective h
  | branch => exact branch_injective h
  | invoke => exact invoke_injective h

end Opcode

/-! ## Lines -/

/-- What a line says: the number of a value if it has one on its left, an opcode and operands. -/
structure Line where
  result? : Option Value
  opcode : Opcode
  operands : opcode.Operands

namespace Line

/-- The left side of a line. -/
def resultText : Option Value → String
  | some v => v.text ++ " = "
  | none => ""

/-- The text of a line. -/
def text (l : Line) : String :=
  resultText l.result? ++ (l.opcode.keyword ++ l.opcode.operandsText l.operands)

/-- Different lines have different texts. -/
theorem text_injective : Function.Injective text := by
  have hlacks : ∀ v : Value, Lacks ' ' v.text := fun v => v.text_lacks (by decide) (by decide)
  -- A keyword does not begin like the value on the left of a line.
  have hleft : ∀ (v : Value) (o : Opcode) (p : o.Operands) (right : String),
      "" ++ (o.keyword ++ o.operandsText p) ≠ v.text ++ " = " ++ right := by
    intro v o p right h
    unfold Value.text at h
    rw [String.empty_append, String.append_assoc, String.append_assoc] at h
    exact o.keyword_ne_value _ _ h
  have hright : ∀ {r : Option Value} {o₁ o₂ : Opcode} {p₁ : o₁.Operands} {p₂ : o₂.Operands},
      o₁.keyword ++ o₁.operandsText p₁ = o₂.keyword ++ o₂.operandsText p₂ →
        (⟨r, o₁, p₁⟩ : Line) = ⟨r, o₂, p₂⟩ := by
    intro r o₁ o₂ p₁ p₂ h
    obtain rfl := Opcode.eq_of_keyword_append h
    rw [o₁.operandsText_injective ((String.append_right_inj _).1 h)]
  rintro ⟨r₁, o₁, p₁⟩ ⟨r₂, o₂, p₂⟩ h
  cases r₁ with
  | none =>
    cases r₂ with
    | none => exact hright ((String.append_right_inj "").1 h)
    | some w => exact absurd h (hleft w o₁ p₁ _)
  | some v =>
    cases r₂ with
    | none => exact absurd h.symm (hleft v o₂ p₂ _)
    | some w =>
      obtain ⟨hresult, h⟩ := cut_first " = " (by decide) (hlacks v) (hlacks w) h
      rw [Value.text_injective hresult]
      exact hright h

end Line

/-! ## Ends of lines and braces -/

/-- There is no end of a line and no opening brace in the text. -/
def IsLine (text : String) : Prop := Lacks '\n' text ∧ Lacks '\x7b' text

instance (text : String) : Decidable (IsLine text) :=
  inferInstanceAs (Decidable (Lacks '\n' text ∧ Lacks '\x7b' text))

@[simp] theorem isLine_append {a b : String} : IsLine (a ++ b) ↔ IsLine a ∧ IsLine b := by
  unfold IsLine
  rw [lacks_append, lacks_append]
  exact and_and_and_comm

theorem isLine_of_isWord {text : String} (h : IsWord text) : IsLine text :=
  ⟨h.lacks (by decide), h.lacks (by decide)⟩

theorem Value.isLine_text (v : Value) : IsLine v.text :=
  ⟨v.text_lacks (by decide) (by decide), v.text_lacks (by decide) (by decide)⟩

theorem Block.isLine_text (b : Block) : IsLine b.text := isLine_of_isWord b.isWord_text

theorem isLine_commas {α : Type} {text : α → String} (h : ∀ a, IsLine (text a)) (l : List α) :
    IsLine (commas (l.map text)) := by
  constructor
  · exact lacks_commas (by simpa using fun a _ => (h a).1) (by decide)
  · exact lacks_commas (by simpa using fun a _ => (h a).2) (by decide)

theorem isLine_callText (callee : Word) (arguments : List Value) :
    IsLine (callText callee.1 arguments) := by
  have harguments := isLine_commas Value.isLine_text arguments
  have hcallee := isLine_of_isWord callee.2
  unfold callText
  simp only [isLine_append]
  exact ⟨⟨⟨⟨by decide, hcallee⟩, by decide⟩, harguments⟩, by decide⟩

theorem isLine_operandText (p : Block × Value) : IsLine (operandText p) := by
  unfold operandText
  simp only [isLine_append]
  exact ⟨⟨⟨⟨by decide, p.1.isLine_text⟩, by decide⟩, p.2.isLine_text⟩, by decide⟩

theorem isLine_phiText (incoming : List (Block × Value)) : IsLine (phiText incoming) := by
  unfold phiText
  split
  · decide
  · exact isLine_append.2 ⟨by decide, isLine_commas isLine_operandText incoming⟩

theorem isLine_branch (condition : Value) (thenDest elseDest : Block) :
    IsLine (commas [condition.text, thenDest.text, elseDest.text]) := by
  simp only [commas_cons_cons, commas_singleton, isLine_append]
  exact ⟨⟨condition.isLine_text, by decide⟩, ⟨thenDest.isLine_text, by decide⟩, elseDest.isLine_text⟩

theorem isLine_invoke (call : Word × List Value) (normal unwind : Block) :
    IsLine (callText call.1 call.2 ++ " to " ++ normal.text ++ " unwind " ++ unwind.text) := by
  simp only [isLine_append]
  exact ⟨⟨⟨⟨isLine_callText call.1 call.2, by decide⟩, normal.isLine_text⟩, by decide⟩,
    unwind.isLine_text⟩

namespace Opcode

theorem isLine_keyword (o : Opcode) : IsLine o.keyword := by
  have hall : ∀ o ∈ all, IsLine o.keyword := by decide +kernel
  exact hall o (mem_all o)

theorem isLine_operandsText (o : Opcode) (p : o.Operands) : IsLine (o.operandsText p) := by
  cases o with
  | intConst | faultTypeId => exact isLine_of_isWord (isWord_intText p)
  | floatConst => exact isLine_of_isWord (isWord_floatText p)
  | param => exact isLine_of_isWord (isWord_nat p)
  | intArith | floatArith | intCompare | floatCompare =>
    exact isLine_append.2
      ⟨isLine_append.2 ⟨Value.isLine_text p.1, by decide⟩, Value.isLine_text p.2⟩
  | boolToInt | floatToInt | intToFloat => exact isLine_append.2 ⟨Value.isLine_text p, by decide⟩
  | faultSelector | beginCatch | reportFault | callUnexpected | ret | raise | resume =>
    exact Value.isLine_text p
  | phi => exact isLine_phiText p
  | call => exact isLine_callText p.1 p.2
  | faultAlloc =>
    have hint : ∀ n, IsLine (intText n) := fun n => isLine_of_isWord (isWord_intText n)
    have htype : IsLine ", type " := by decide
    exact isLine_append.2 ⟨isLine_append.2 ⟨hint p.1, htype⟩, hint p.2⟩
  | landingPad | endCatch | unreachable => exact (by decide : IsLine "")
  | jump => exact Block.isLine_text p
  | branch => exact isLine_branch p.1 p.2.1 p.2.2
  | invoke => exact isLine_invoke p.1 p.2.1 p.2.2

end Opcode

theorem Line.isLine_text (l : Line) : IsLine l.text := by
  obtain ⟨r, o, p⟩ := l
  refine isLine_append.2 ⟨?_, isLine_append.2 ⟨o.isLine_keyword, o.isLine_operandsText p⟩⟩
  cases r with
  | none => exact (by decide : IsLine "")
  | some v => exact isLine_append.2 ⟨v.isLine_text, by decide⟩

/-! ## What lines show -/

namespace Opcode

/-- The type and the instruction of a value in a line. -/
def shown : (o : Opcode) → o.Operands → Ty × Inst
  | intConst, n => (.int, .intConst n)
  | floatConst, x => (.float, .floatConst x)
  | param, index => (.int, .param index)
  | intArith op, (lhs, rhs) => (.int, .intArith op lhs rhs)
  | floatArith op, (lhs, rhs) => (.float, .floatArith op lhs rhs)
  | intCompare op, (lhs, rhs) => (.bool, .intCompare op lhs rhs)
  | floatCompare op, (lhs, rhs) => (.bool, .floatCompare op lhs rhs)
  | boolToInt, v => (.int, .boolToInt v)
  | intToFloat, v => (.float, .intToFloat v)
  | floatToInt, v => (.int, .floatToInt v)
  | phi ty, incoming => (ty, .phi incoming)
  | call ty, (callee, arguments) => (ty, .call callee.1 arguments)
  | faultAlloc, (code, typeId) => (.fault, .faultAlloc code typeId)
  | landingPad, _ => (.fault, .landingPad)
  | faultSelector, v => (.int, .faultSelector v)
  | faultTypeId, n => (.int, .faultTypeId n)
  | beginCatch, v => (.int, .beginCatch v)
  | reportFault, v => (.unit, .reportFault v)
  | endCatch, _ => (.unit, .endCatch)
  | callUnexpected, v => (.unit, .callUnexpected v)
  | jump, _ | branch, _ | ret, _ | invoke _, _ | raise, _ | resume, _ | unreachable, _ => default

/-- The end of a block in a line with a value on its left, and the type and the instruction of that
value if the end is a call. -/
def ending : (o : Opcode) → o.Operands → Value → Terminator × Option (Ty × Inst)
  | jump, dest, _ => (.jump dest, none)
  | branch, (condition, thenDest, elseDest), _ => (.branch condition thenDest elseDest, none)
  | ret, v, _ => (.ret v, none)
  | invoke ty, ((callee, arguments), normal, unwind), v =>
    (.invoke v normal unwind, some (ty, .call callee.1 arguments))
  | raise, v, _ => (.raise v, none)
  | resume, v, _ => (.resume v, none)
  | _, _, _ => (.unreachable, none)

end Opcode

namespace Function

/-- What a listing shows of a value: its number unless it is of type `unit`, its type and its
instruction. -/
def shown (f : Function) (v : Value) : Option Value × Ty × Inst :=
  (if (f.value v).ty = .unit then none else some v, (f.value v).ty, f.inst v)

/-- What a listing shows of the end of a block: the terminator, and the type and the instruction of the
call if it is an `invoke`. -/
def shownEnd (f : Function) : Terminator → Terminator × Option (Ty × Inst)
  | .invoke call normal unwind =>
    (.invoke call normal unwind, some ((f.value call).ty, f.inst call))
  | t => (t, none)

end Function

/-- An instruction that fits is written with the opcode and the operands that show it. -/
theorem ValueInfo.Fits.exists_opcode {info : ValueInfo} (h : info.Fits) :
    ∃ (o : Opcode) (operands : o.Operands), o.shown operands = (info.ty, info.inst) ∧
      info.inst.text info.ty = o.keyword ++ o.operandsText operands := by
  obtain ⟨ty, inst, block⟩ := info
  have htyped : ∀ {ty' : Ty}, inst.ty? = some ty' → ty = ty' := h.typed _
  cases inst with
  | phi incoming => exact ⟨.phi ty, incoming, rfl, rfl⟩
  | call callee arguments =>
    exact ⟨.call ty, (⟨callee, h.callee callee arguments rfl⟩, arguments), rfl, rfl⟩
  | intConst n =>
    obtain rfl := htyped rfl
    exact ⟨.intConst, n, rfl, rfl⟩
  | floatConst x =>
    obtain rfl := htyped rfl
    exact ⟨.floatConst, x, rfl, rfl⟩
  | param index =>
    obtain rfl := htyped rfl
    exact ⟨.param, index, rfl, rfl⟩
  | intArith op lhs rhs =>
    obtain rfl := htyped rfl
    exact ⟨.intArith op, (lhs, rhs), rfl, rfl⟩
  | floatArith op lhs rhs =>
    obtain rfl := htyped rfl
    exact ⟨.floatArith op, (lhs, rhs), rfl, rfl⟩
  | intCompare op lhs rhs =>
    obtain rfl := htyped rfl
    exact ⟨.intCompare op, (lhs, rhs), rfl, rfl⟩
  | floatCompare op lhs rhs =>
    obtain rfl := htyped rfl
    exact ⟨.floatCompare op, (lhs, rhs), rfl, rfl⟩
  | boolToInt v =>
    obtain rfl := htyped rfl
    exact ⟨.boolToInt, v, rfl, String.append_assoc⟩
  | intToFloat v =>
    obtain rfl := htyped rfl
    exact ⟨.intToFloat, v, rfl, String.append_assoc⟩
  | floatToInt v =>
    obtain rfl := htyped rfl
    exact ⟨.floatToInt, v, rfl, String.append_assoc⟩
  | faultAlloc code typeId =>
    obtain rfl := htyped rfl
    have hassoc : ∀ a b c d : String, a ++ b ++ c ++ d = a ++ (b ++ c ++ d) := by
      simp [String.append_assoc]
    exact ⟨.faultAlloc, (code, typeId), rfl, hassoc ..⟩
  | landingPad =>
    obtain rfl := htyped rfl
    exact ⟨.landingPad, (), rfl, rfl⟩
  | faultSelector v =>
    obtain rfl := htyped rfl
    exact ⟨.faultSelector, v, rfl, rfl⟩
  | faultTypeId n =>
    obtain rfl := htyped rfl
    exact ⟨.faultTypeId, n, rfl, rfl⟩
  | beginCatch v =>
    obtain rfl := htyped rfl
    exact ⟨.beginCatch, v, rfl, rfl⟩
  | reportFault v =>
    obtain rfl := htyped rfl
    exact ⟨.reportFault, v, rfl, rfl⟩
  | endCatch =>
    obtain rfl := htyped rfl
    exact ⟨.endCatch, (), rfl, rfl⟩
  | callUnexpected v =>
    obtain rfl := htyped rfl
    exact ⟨.callUnexpected, v, rfl, rfl⟩

namespace Function

variable {f : Function}

/-- The line of a value. -/
theorem Legible.exists_valueLine (h : f.Legible) (v : Value) :
    ∃ l : Line, l.text = f.valueText v ∧ (l.result?, l.opcode.shown l.operands) = f.shown v := by
  obtain ⟨o, operands, hshown, htext⟩ := (h.values v).exists_opcode
  refine ⟨⟨if (f.value v).ty = .unit then none else some v, o, operands⟩, ?_, ?_⟩
  · unfold Line.text valueText
    dsimp only
    rw [htext]
    split <;> rfl
  · exact Prod.ext rfl hshown

/-- The line of the end of a block. -/
theorem Legible.exists_endLine (h : f.Legible) {b : Block} {t : Terminator}
    (ht : (f.block b).terminator? = some t) : ∃ l : Line, l.text = f.terminatorText t ∧
      l.opcode.ending l.operands (l.result?.getD default) = f.shownEnd t := by
  have hplain : ∀ o : Opcode, ∀ p : o.Operands,
      (⟨none, o, p⟩ : Line).text = o.keyword ++ o.operandsText p := fun o p => String.empty_append
  cases t with
  | jump dest => exact ⟨⟨none, .jump, dest⟩, hplain _ _, rfl⟩
  | branch condition thenDest elseDest =>
    exact ⟨⟨none, .branch, (condition, thenDest, elseDest)⟩, hplain _ _, rfl⟩
  | ret v => exact ⟨⟨none, .ret, v⟩, hplain _ _, rfl⟩
  | invoke call normal unwind =>
    obtain ⟨-, callee, arguments, hcall⟩ := h.invokes b call normal unwind ht
    have hcallee : IsWord callee := (h.values call).callee callee arguments hcall
    refine ⟨⟨some call, .invoke (f.value call).ty, ((⟨callee, hcallee⟩, arguments), normal, unwind)⟩,
      ?_, ?_⟩
    · have htext : f.terminatorText (.invoke call normal unwind) = call.text ++ (" = " ++ "invoke ") ++
          (f.value call).ty.text ++ " " ++ callText callee arguments ++ " to " ++ normal.text ++
          " unwind " ++ unwind.text := by
        unfold terminatorText
        dsimp only
        rw [show (f.value call).inst = _ from hcall]
        rfl
      rw [htext]
      show call.text ++ " = " ++ ("invoke " ++ (f.value call).ty.text ++ " " ++
        (callText callee arguments ++ " to " ++ normal.text ++ " unwind " ++ unwind.text)) = _
      simp only [String.append_assoc]
    · exact congrArg (fun inst => (Terminator.invoke call normal unwind,
        some ((f.value call).ty, inst))) hcall.symm
  | raise v => exact ⟨⟨none, .raise, v⟩, hplain _ _, rfl⟩
  | resume v => exact ⟨⟨none, .resume, v⟩, hplain _ _, rfl⟩
  | unreachable => exact ⟨⟨none, .unreachable, ()⟩, hplain _ _, rfl⟩

/-- Values with the same line are shown in the same way. -/
theorem Legible.shown_eq {g : Function} (hf : f.Legible) (hg : g.Legible) {v w : Value}
    (h : f.valueText v = g.valueText w) : f.shown v = g.shown w := by
  obtain ⟨l₁, htext₁, hshown₁⟩ := hf.exists_valueLine v
  obtain ⟨l₂, htext₂, hshown₂⟩ := hg.exists_valueLine w
  obtain rfl : l₁ = l₂ := Line.text_injective (htext₁.trans (h.trans htext₂.symm))
  exact hshown₁.symm.trans hshown₂

/-- Ends of blocks with the same line are shown in the same way. -/
theorem Legible.shownEnd_eq {g : Function} (hf : f.Legible) (hg : g.Legible) {b c : Block}
    {t u : Terminator} (ht : (f.block b).terminator? = some t) (hu : (g.block c).terminator? = some u)
    (h : f.terminatorText t = g.terminatorText u) : f.shownEnd t = g.shownEnd u := by
  obtain ⟨l₁, htext₁, hshown₁⟩ := hf.exists_endLine ht
  obtain ⟨l₂, htext₂, hshown₂⟩ := hg.exists_endLine hu
  obtain rfl : l₁ = l₂ := Line.text_injective (htext₁.trans (h.trans htext₂.symm))
  exact hshown₁.symm.trans hshown₂

end Function

end Abacus.Flow
