import Abacus.Proofs.Meaning.Calls

/-!
# Following expressions

An activation that comes to where an expression has been lowered does what the evaluation of the
expression does, and then the value that stands for the expression holds the number.

* `Coerced.makes`, `Tested.makes`, `Negated.makes` — conversions;
* `Combined.follows` — operators; a division by 0 ends the activation with a fault;
* `Values.follows` — all expressions.
-/

namespace Abacus.Meaning.Number

open Abacus.Flow (Ty)

/-- The number in a type. -/
def inType (n : Number) : Ty → Number
  | .float => float n.toFloat
  | _ => int n.toInt

theorem inType_of_ne {ty : Ty} (h : ty ≠ .float) (n : Number) : n.inType ty = int n.toInt := by
  cases ty <;> first | exact absurd rfl h | rfl

theorem inType_self {n : Number} {ty : Ty} (h : n.scalar.ty = ty) : n.inType ty = n := by
  subst h
  cases n <;> rfl

theorem like_eq (n other : Number) : n.like other = n.inType other.scalar.ty := by
  cases other <;> rfl

/-- A number that is an integer. -/
theorem of_int {n : Number} (h : n.scalar.ty = .int) : ∃ a, n = int a := by
  cases n with
  | int a => exact ⟨a, rfl⟩
  | float x => cases h

theorem of_float {n : Number} (h : n.scalar.ty = .float) : ∃ x, n = float x := by
  cases n with
  | int a => cases h
  | float x => exact ⟨x, rfl⟩

theorem of_ne_float {n : Number} (h : n.scalar.ty ≠ .float) : ∃ a, n = int a := by
  cases n with
  | int a => exact ⟨a, rfl⟩
  | float x => exact absurd rfl h

end Abacus.Meaning.Number

namespace Abacus.Lowering.Plan

open Abacus.Flow (Value Block Ty Inst Terminator Arith Compare)
open Abacus.Machine
open Abacus.Meaning

variable {S : Setting} {p : Program} {config : FaultConfig} {opened symbols : SymbolTable}
  {ω σ σ' : Plan} {ctx : Context} {depth : Nat} {env : List (String × Number)} {frame : Frame}
  {v v' : Value} {n : Number}

/-! ## Conversions -/

theorem Coerced.makes {ty : Ty} (h : Coerced σ v ty v' σ') (hσ : σ.Ready) (hv : σ.Has σ.current v)
    (hω : ω.Sound) (e : Extends σ' ω) (ha : Abreast opened ω σ symbols env frame)
    (hn : frame.value? v = some n.scalar) :
    Makes p opened ω σ σ' symbols env frame v' (n.inType ty).scalar := by
  have hty := ha.ty hω hσ.sound ((h.gives hσ hv).advance.since.extends'.trans e) hv hn
  cases h with
  | same hsame => exact .here ha (by rw [Number.inType_self (hty.symm.trans hsame), hn])
  | toFloat hint hfloat =>
    obtain ⟨a, rfl⟩ := Number.of_int (hty.symm.trans hint)
    subst hfloat
    exact ha.emit hσ e (.intToFloat hn) rfl rfl
  | toInt hfloat hint =>
    obtain ⟨x, rfl⟩ := Number.of_float (hty.symm.trans hfloat)
    subst hint
    exact ha.emit hσ e (.floatToInt hn) rfl rfl

/-- A constant and an instruction that reads it together with a value that is there. -/
theorem makes_withConst {const inst : Inst} {constTy ty : Ty} {zero content old : Scalar}
    (hσ : σ.Ready) (hv : σ.Has σ.current v) (hnone : const.operands = [])
    (e : Extends ((σ.emit const constTy).emit inst ty) ω)
    (ha : Abreast opened ω σ symbols env frame) (hold : frame.value? v = some old)
    (hconst : Evaluated frame const zero frame ∧ reportsOf frame const = []) (hzero : zero.ty = constTy)
    (hinst : ∀ mid : Frame, mid.value? v = some old → mid.value? σ.next = some zero →
      Evaluated mid inst content mid ∧ reportsOf mid inst = []) (hty : content.ty = ty) :
    Makes p opened ω σ ((σ.emit const constTy).emit inst ty) symbols env frame
      (σ.emit const constTy).next content := by
  have hready : (σ.emit const constTy).Ready := hσ.emit constTy (by simp [hnone])
  have e₂ : Extends (σ.emit const constTy) ((σ.emit const constTy).emit inst ty) :=
    extends_emit hready.isOpen
  refine (ha.emit hσ (e₂.trans e) hconst.1 hzero hconst.2).then (extends_emit hσ.isOpen)
    fun mid hmid hnext => ?_
  obtain ⟨heval, hreports⟩ := hinst mid (hmid.keeps hσ.sound hv hold) hnext
  exact hmid.abreast.emit hready e heval hty hreports

/-- Is the number different from 0? -/
theorem Tested.makes (h : Tested σ v v' σ') (hσ : σ.Ready) (hv : σ.Has σ.current v)
    (hω : ω.Sound) (e : Extends σ' ω) (ha : Abreast opened ω σ symbols env frame)
    (hn : frame.value? v = some n.scalar) :
    Makes p opened ω σ σ' symbols env frame v' (.bool n.isNonzero) := by
  have hty := ha.ty hω hσ.sound ((h.gives hσ hv).advance.since.extends'.trans e) hv hn
  cases h with
  | int hint h₁ =>
    obtain ⟨a, rfl⟩ := Number.of_int (hty.symm.trans hint)
    subst h₁
    exact makes_withConst hσ hv rfl e ha hn ⟨.intConst 0, rfl⟩ rfl
      (fun _ ha hzero => ⟨.intCompare ha hzero, rfl⟩) rfl
  | float hfloat h₁ =>
    obtain ⟨x, rfl⟩ := Number.of_float (hty.symm.trans hfloat)
    subst h₁
    exact makes_withConst hσ hv rfl e ha hn ⟨.floatConst 0.0, rfl⟩ rfl
      (fun _ hx hzero => ⟨.floatCompare hx hzero, rfl⟩) rfl

theorem Negated.makes (h : Negated σ v v' σ') (hσ : σ.Ready) (hv : σ.Has σ.current v)
    (hω : ω.Sound) (e : Extends σ' ω) (ha : Abreast opened ω σ symbols env frame)
    (hn : frame.value? v = some n.scalar) :
    Makes p opened ω σ σ' symbols env frame v' n.negative.scalar := by
  have hty := ha.ty hω hσ.sound ((h.gives hσ hv).advance.since.extends'.trans e) hv hn
  cases h with
  | float hfloat h₁ =>
    obtain ⟨x, rfl⟩ := Number.of_float (hty.symm.trans hfloat)
    subst h₁
    exact makes_withConst hσ hv rfl e ha hn ⟨.floatConst 0.0, rfl⟩ rfl
      (fun _ hx hzero => ⟨.floatArith hzero hx, rfl⟩) rfl
  | int hint h₁ =>
    obtain ⟨a, rfl⟩ := Number.of_ne_float fun he => hint (hty.trans he)
    subst h₁
    exact makes_withConst hσ hv rfl e ha hn ⟨.intConst 0, rfl⟩ rfl
      (fun _ ha hzero => ⟨.intArith hzero ha (by simp), rfl⟩) rfl

/-! ## Operators -/

section

variable {op : InfixOp} {cmp : Compare} {arith : Arith}

theorem integers_compare (h : operation op = .inr cmp) (a b : Int64) :
    integers op a b = some (.truth (intCompare cmp a b)) := by
  cases op <;> cases h <;> rfl

theorem floats_compare (h : operation op = .inr cmp) (x y : Float) :
    floats op x y = .truth (floatCompare cmp x y) := by
  cases op <;> cases h <;> rfl

theorem integers_arith (h : operation op = .inl arith) (hdiv : arith ≠ .div) (a b : Int64) :
    integers op a b = some (.int (intArith arith a b)) := by
  cases op <;> cases h
  case div.refl => exact absurd rfl hdiv
  all_goals rfl

theorem floats_arith (h : operation op = .inl arith) (x y : Float) :
    floats op x y = .float (floatArith arith x y) := by
  cases op <;> cases h <;> rfl

theorem integers_div (h : operation op = .inl .div) (a b : Int64) :
    integers op a b = if b = 0 then none else some (.int (a / b)) := by
  cases op <;> cases h
  rfl

/-- Numbers are combined in the type in which they meet. -/
theorem combine_eq (op : InfixOp) (a b : Number) {ty : Ty} (h : ty = Lower.meet a.scalar.ty b.scalar.ty) :
    combine op a b = if ty = .float then some (floats op a.toFloat b.toFloat)
      else integers op a.toInt b.toInt := by
  subst h
  cases a <;> cases b <;> rfl

end

/-- What has been compared becomes a number. -/
theorem makes_compared {inst : Inst} {holds : Bool} (hσ : σ.Ready)
    (e : Extends ((σ.emit inst .bool).emit (.boolToInt σ.next) .int) ω)
    (ha : Abreast opened ω σ symbols env frame) (heval : Evaluated frame inst (.bool holds) frame)
    (hreports : reportsOf frame inst = []) (hoperands : ∀ u ∈ inst.operands, σ.Has σ.current u) :
    Makes p opened ω σ ((σ.emit inst .bool).emit (.boolToInt σ.next) .int) symbols env frame
      (σ.emit inst .bool).next (Number.truth holds).scalar := by
  have hready : (σ.emit inst .bool).Ready := hσ.emit .bool hoperands
  have e₂ : Extends (σ.emit inst .bool) ((σ.emit inst .bool).emit (.boolToInt σ.next) .int) :=
    extends_emit hready.isOpen
  refine (ha.emit hσ (e₂.trans e) heval rfl hreports).then (extends_emit hσ.isOpen)
    fun mid hmid hnext => ?_
  exact hmid.abreast.emit hready e (.boolToInt hnext) rfl rfl

section

variable {k : Nat} {w : World} {lhs rhs : Value} (hS : Scene S config opened ω ctx depth) (hσ : σ.Ready)
  (hlhs : σ.Has σ.current lhs) (hrhs : σ.Has σ.current rhs) (e : Extends σ' ω)
  (ha : Abreast opened ω σ symbols w.vars frame)
include hS hσ hlhs hrhs e ha

/-- Integers are divided, unless the divisor is 0. -/
theorem Divided.follows {quotient : Value} {a b : Int64}
    (h : Divided config σ lhs rhs quotient σ') (hl : frame.value? lhs = some (.int a))
    (hr : frame.value? rhs = some (.int b)) {x : Eval Number}
    (hfaults : b = 0 → x w = (.error .faulted, w)) (hgoes : b ≠ 0 → x w = (.ok (.int (a / b)), w)) :
    Follows S k frame w x fun n => Yields opened ω σ σ' symbols w frame [quotient] [n.scalar] := by
  obtain ⟨-, hscript, hat⟩ := h.stages hσ hlhs hrhs
  obtain ⟨zero, isZero, fault, hat, hnew⟩ := hat e
  simp only [List.forall_mem_cons, List.not_mem_nil, false_implies, implies_true, and_true] at hnew
  obtain ⟨hnew₁, hnew₂, hnew₃, hnew₄⟩ := hnew
  obtain ⟨path, latest, hcourse, hmirror⟩ := ha
  -- The divisor is compared with 0.
  have hstart : Walk S.program ω σ.builder.valueCount frame path σ.current (σ.record.script σ.current)
      frame latest := .start hcourse _
  obtain ⟨f₁, h₁, hzero, -⟩ := hstart.execute hat.constant (.intConst 0) rfl rfl hnew₁
  have hr₁ := (h₁.keeps rhs (hσ.sound.lt_of_has hrhs)).trans hr
  obtain ⟨f₂, h₂, htest, -⟩ := h₁.execute hat.compares (.intCompare hr₁ hzero) rfl rfl hnew₂
  rw [List.append_assoc] at h₂
  by_cases hb : b = 0
  · -- The fault is raised.
    obtain ⟨f₃, h₃, -⟩ := h₂.branch hS.whole hat.branches htest (c := σ.block 0) (by simp [intCompare, hb])
      hat.toRaise
    obtain ⟨f₄, h₄, hfault, -⟩ := h₃.execute hat.allocates (.faultAlloc ..) rfl rfl hnew₃
    obtain ⟨n, hraise⟩ : ∃ n, Closes S.program f₄ n [] (.unwinding ⟨config.code, config.typeId⟩) :=
      h₄.course.reached.raise hS.whole.sound hat.raises hfault
    rw [← hS.fault] at hraise
    exact .steps h₄.leads (.faults (hfaults hb) (hS.raises ⟨_, fault, hat.raises.terminator⟩)
      hraise (List.append_nil _).symm)
  · obtain ⟨f₃, h₃, -⟩ := h₂.branch hS.whole hat.branches htest (c := σ'.current)
      (by simp [intCompare, hb]) hat.toOkay
    have hl₃ := (h₃.keeps lhs (hσ.sound.lt_of_has hlhs)).trans hl
    have hr₃ := (h₃.keeps rhs (hσ.sound.lt_of_has hrhs)).trans hr
    obtain ⟨f₄, h₄, hquotient, -⟩ := h₃.execute hat.divides (.intArith hl₃ hr₃ fun _ => hb) rfl rfl hnew₄
    rw [List.nil_append, ← hscript] at h₄
    exact Makes.follows (n := .int (a / b)) ⟨f₄, h₄.leads, .of_walk h₄ hmirror, hquotient⟩ (hgoes hb)

/-- An operator is applied to numbers of the type in which they meet. -/
theorem Computed.follows {op : InfixOp} {ty : Ty} {divides : Bool} {a b : Number}
    (h : Computed config σ op ty lhs rhs divides v σ')
    (hl : frame.value? lhs = some (a.inType ty).scalar) (hr : frame.value? rhs = some (b.inType ty).scalar)
    {x : Eval Number} (hx : x w = match (if ty = .float then some (floats op a.toFloat b.toFloat)
      else integers op a.toInt b.toInt) with
      | some n => (.ok n, w)
      | none => (.error .faulted, w)) :
    Follows S k frame w x fun n => Yields opened ω σ σ' symbols w frame [v] [n.scalar] := by
  have hoperands : ∀ u ∈ [lhs, rhs], σ.Has σ.current u := by
    simpa using ⟨hlhs, hrhs⟩
  cases h with
  | floatCompare hop hty h₁ =>
    subst hty h₁
    rw [if_pos rfl, floats_compare hop] at hx
    exact (makes_compared hσ e ha (.floatCompare hl hr) rfl hoperands).follows hx
  | intCompare hop hty h₁ =>
    subst h₁
    rw [Number.inType_of_ne hty] at hl hr
    rw [if_neg hty, integers_compare hop] at hx
    exact (makes_compared hσ e ha (.intCompare hl hr) rfl hoperands).follows hx
  | floatArith hop hty =>
    subst hty
    rw [if_pos rfl, floats_arith hop] at hx
    exact Makes.follows (n := .float _) (ha.emit hσ e (.floatArith hl hr) rfl rfl) hx
  | divide hop hty hdivided =>
    rw [Number.inType_of_ne hty] at hl hr
    rw [if_neg hty, integers_div hop] at hx
    refine hdivided.follows hS hσ hlhs hrhs e ha hl hr (fun hb => ?_) fun hb => ?_
    · rw [hx, if_pos hb]
    · rw [hx, if_neg hb]
  | intArith hop hdiv hty =>
    rw [Number.inType_of_ne hty] at hl hr
    rw [if_neg hty, integers_arith hop hdiv] at hx
    exact Makes.follows (n := .int _)
      (ha.emit hσ e (.intArith hl hr fun he => absurd he hdiv) rfl rfl) hx

/-- An operator is applied to two numbers. -/
theorem Combined.follows {op : InfixOp} {divides : Bool} {a b : Number}
    (h : Combined config σ op lhs rhs divides v σ') (hl : frame.value? lhs = some a.scalar)
    (hr : frame.value? rhs = some b.scalar) : Follows S k frame w (infixOp op a b) fun n =>
      Yields opened ω σ σ' symbols w frame [v] [n.scalar] := by
  obtain @⟨ty, l, r, σ₁, σ₂, divides, v, σ', hty, hleft, hright, hresult⟩ := h
  have h₁ := hleft.gives hσ hlhs
  have hrhs₁ := h₁.keeps hσ hrhs
  have h₂ := hright.gives h₁.ready hrhs₁
  have hl₂ := h₂.keeps h₁.ready h₁.has
  have e₂ := (hresult.gives h₂.ready hl₂ h₂.has).advance.since.extends'.trans e
  have e₁ := h₂.advance.since.extends'.trans e₂
  have e₀ := h₁.advance.since.extends'.trans e₁
  have hω := hS.whole.sound
  -- Both operands are converted.
  obtain ⟨f₁, hleads₁, hcomes₁, hf₁⟩ := hleft.makes (p := S.program) hσ hlhs hω e₁ ha hl
  obtain ⟨f₂, hleads₂, hcomes₂, hf₂⟩ := hright.makes (p := S.program) h₁.ready hrhs₁ hω e₂ hcomes₁.abreast
    (hcomes₁.keeps hσ.sound hrhs hr)
  have hcomes := hcomes₁.trans hcomes₂ h₁.advance.since.extends'
  refine .steps hleads₁ (.steps hleads₂ ?_)
  refine (hresult.follows (a := a) (b := b) hS h₂.ready hl₂ h₂.has e hcomes.abreast
    (hcomes₂.keeps h₁.ready.sound h₁.has hf₁) hf₂ ?_).mono fun n w' after h => ?_
  · rw [ha.ty hω hσ.sound e₀ hlhs hl, ha.ty hω hσ.sound e₀ hrhs hr] at hty
    rw [← combine_eq op a b hty]
    unfold infixOp
    cases combine op a b <;> rfl
  · exact ⟨h.vars, hcomes.trans h.comes (h₁.advance.trans h₂.advance).since.extends', h.holds⟩

end

/-! ## Expressions -/

/-- What a part of an expression leads to from where lowering was in `σ` to where it was in `σ'`. -/
def ValuePart.Follows (S : Setting) (ctx : Context) (k : Nat) (opened : SymbolTable) (ω σ σ' : Plan)
    (symbols : SymbolTable) (w : World) (frame : Frame) (vs : List Value) : ValuePart → Prop
  | .expr t => Meaning.Follows S k frame w (expression ctx t) fun n =>
      Yields opened ω σ σ' symbols w frame vs [n.scalar]
  | .args ts => Meaning.Follows S k frame w (arguments ctx ts) fun ns =>
      Yields opened ω σ σ' symbols w frame vs (ns.map .int)

theorem argumentItems_eq (ctx : Context) (t : Tree) :
    argumentItems ctx t = arguments ctx t.items := by
  obtain ⟨span, shape⟩ := t
  cases shape <;> rfl

/-- An activation does what the evaluation of an expression, or of arguments, does. -/
theorem Values.follows (hS : Scene S config opened ω ctx depth) {part : ValuePart} {b : Bool}
    {vs : List Value} (h : Values config symbols part σ b vs σ') (hσ : σ.Ready) (e : Extends σ' ω)
    {w : World} (ha : Abreast opened ω σ symbols w.vars frame) :
    part.Follows S ctx (depth + 1) opened ω σ σ' symbols w frame vs := by
  induction h generalizing w frame with
  | integer => exact Makes.follows (n := .int _) (ha.emit hσ e (.intConst _) rfl rfl) rfl
  | floating => exact Makes.follows (n := .float _) (ha.emit hσ e (.floatConst _) rfl rfl) rfl
  | @ident span name x σ v d hfind hread =>
    have hhere : (σ.read x v d).record.script σ.current = σ.record.script σ.current ++ [.read x v] :=
      Recording.happen_self ..
    obtain ⟨later, hscript⟩ := e.script σ.current
    rw [hhere, List.append_assoc] at hscript
    obtain ⟨hpassed, n, hlookup, hn, -⟩ := Beside.read ha hS.whole hS.global hfind hscript
    have hcurrent : (σ.read x v d).current = σ.current := (hσ.sound.read hread).2.2.2
    rw [← hhere, ← hcurrent] at hpassed
    refine .silent (show lookup name w = (.ok n, w) from lookup_ok hlookup) rfl
      ⟨rfl, ⟨hpassed, fun _ _ => rfl⟩, ?_⟩
    simp [hn]
  | @infixOp span op left right σ b₁ l σ₁ b₂ r σ₂ b₃ v σ' hleft hright hresult ih₁ ih₂ =>
    have h₁ := hleft.gives hσ
    have hl := h₁.2.2 l (by simp)
    have h₂ := hright.gives h₁.1
    have hl₂ := h₂.2.1.has h₁.1.sound hl
    have hr₂ := h₂.2.2 r (by simp)
    have e₂ := (hresult.gives h₂.1 hl₂ hr₂).advance.since.extends'.trans e
    have e₁ := h₂.2.1.since.extends'.trans e₂
    refine .bind (ih₁ hσ e₁ ha) fun a w₁ f₁ hyields₁ => ?_
    refine .bind (ih₂ h₁.1 e₂ hyields₁.abreast) fun b w₂ f₂ hyields₂ => ?_
    have hyields := hyields₁.trans hyields₂ h₁.2.1.since.extends'
    refine (hresult.follows hS h₂.1 hl₂ hr₂ e hyields₂.abreast
      (hyields₂.comes.keeps h₁.1.sound hl hyields₁.value) hyields₂.value).mono fun n w₃ f₃ h => ?_
    exact hyields.trans h (h₁.2.1.trans h₂.2.1).since.extends'
  | @negate span operand σ b v σ₁ v' σ' hv hnegated ih =>
    have h₁ := hv.gives hσ
    have hv₁ := h₁.2.2 v (by simp)
    have e₁ := (hnegated.gives h₁.1 hv₁).advance.since.extends'.trans e
    refine .bind (ih hσ e₁ ha) fun n w₁ f₁ hyields₁ => ?_
    refine (Makes.follows (n := n.negative) (hnegated.makes h₁.1 hv₁ hS.whole.sound e
      hyields₁.abreast hyields₁.value) rfl).mono fun n w₂ f₂ h => ?_
    exact hyields₁.trans h h₁.2.1.since.extends'
  | @pi span name items σ hname hfree hcount =>
    have ⟨_, _, _, hmirror⟩ := ha
    obtain ⟨hvars, hopened⟩ := hmirror.lookup_none hfree
    have hpi : isPi ctx name w = (.ok true, w) := by
      subst hname
      have hnot : "pi" ∉ ctx.visible := fun hmem => by
        have := (hS.visible piName).1 hmem
        rw [hopened] at this
        cases this
      rw [isPi_eq, hvars]
      simp [hnot, piName]
    refine Follows.congr ?_ (bind_ok hpi)
    exact Makes.follows (n := .float _) (ha.emit hσ e (.floatConst _) rfl rfl) rfl
  | @call span name items σ id arity handled b vs σ₁ v σ' hfind hcount hvs hcalled ih =>
    have h₁ := hvs.gives hσ
    have e₁ := (hcalled.gives h₁.1 h₁.2.2).advance.since.extends'.trans e
    have ⟨_, _, _, hmirror⟩ := ha
    have hopened := hmirror.findFunction hfind
    have hpi : isPi ctx name w = (.ok false, w) := by
      have hvisible := (hS.visible name).2 (by rw [hopened]; rfl)
      rw [isPi_eq]
      simp [hvisible]
    refine Follows.congr (y := argumentItems ctx items >>= Meaning.call ctx name) ?_ (bind_ok hpi)
    rw [argumentItems_eq]
    refine .bind (ih hσ e₁ ha) fun ns w₁ f₁ hyields₁ => ?_
    have hlength : ns.length = arity := by
      have := congrArg List.length hyields₁.holds
      simp only [List.length_map] at this
      rw [← this, hvs.length_args, hcount]
    refine (hcalled.follows hS h₁.1 h₁.2.2 e hyields₁.abreast hyields₁.holds hopened
      hlength).mono fun n w₂ f₂ h => ?_
    exact hyields₁.trans h h₁.2.1.since.extends'
  | nil => exact .pure ⟨rfl, .rfl' ha, rfl⟩
  | @cons t ts σ b₁ v σ₁ v' σ₂ b₂ vs σ' ht hcoerced hts ih₁ ih₂ =>
    have h₁ := ht.gives hσ
    have hv := h₁.2.2 v (by simp)
    have h₂ := hcoerced.gives h₁.1 hv
    have h₃ := hts.gives h₂.ready
    have e₂ := h₃.2.1.since.extends'.trans e
    have e₁ := h₂.advance.since.extends'.trans e₂
    refine .bind (ih₁ hσ e₁ ha) fun n w₁ f₁ hyields₁ => ?_
    -- The argument is converted to an integer.
    obtain ⟨f₂, hleads, hcomes₂, hv'⟩ := hcoerced.makes (p := S.program) h₁.1 hv hS.whole.sound e₂
      hyields₁.abreast hyields₁.value
    refine .steps hleads (.bind (ih₂ h₂.ready e hcomes₂.abreast) fun ns w₂ f₃ hyields₂ => .pure ?_)
    have hcomes := hcomes₂.trans hyields₂.comes h₂.advance.since.extends'
    refine ⟨hyields₂.vars.trans hyields₁.vars, hyields₁.comes.trans (hyields₁.vars ▸ hcomes)
      h₁.2.1.since.extends', ?_⟩
    rw [List.map_cons, List.map_cons, List.map_cons, hyields₂.holds,
      hyields₂.comes.keeps h₂.ready.sound h₂.has hv']
    rfl

end Abacus.Lowering.Plan
