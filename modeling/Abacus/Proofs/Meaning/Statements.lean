import Abacus.Proofs.Meaning.Loops

/-!
# Following statements

An activation that comes to where a statement has been lowered does what the evaluation of the
statement does, and then the variables in scope have the numbers that the evaluation knows.

* `Follows.inScope` — a body in a scope of its own;
* `Abreast.define`, `Abreast.replace` — variables;
* `Statements.follows` — all statements, by induction on their lowering.
-/

namespace Abacus.Meaning

open Abacus.Machine

/-! ## The evaluation of bodies -/

section

variable {ctx : Context} {S : Setting} {k : Nat} {frame : Frame} {w : World} {work : Eval Unit}
  {post : Unit → World → Frame → Prop}

/-- The statements of a body, without a value. -/
def body (ctx : Context) (ts : List Tree) : Eval Unit := do
  let _ ← statements ctx ts

theorem items_eq (ctx : Context) (t : Tree) : items ctx t = body ctx t.items := by
  obtain ⟨span, shape⟩ := t
  cases shape <;> rfl

/-- Behind a scope the variables that are new in it go. -/
theorem Follows.inScope (h : Follows S k frame w work post) :
    Follows S k frame w (inScope work) fun _ w' after => ∃ w₁, post () w₁ after ∧
      w' = { w₁ with vars := w₁.vars.drop (w₁.vars.length - w.vars.length) } := by
  let close : Eval Unit :=
    modify fun u => { u with vars := u.vars.drop (u.vars.length - w.vars.length) }
  have hbound : Follows S k frame w (work >>= fun _ => close) fun _ w' after => ∃ w₁, post () w₁ after ∧
      w' = { w₁ with vars := w₁.vars.drop (w₁.vars.length - w.vars.length) } :=
    h.bind fun _ w₁ after hpost => .silent rfl rfl ⟨w₁, hpost, rfl⟩
  exact hbound.congr rfl

/-- A scope in which nothing is done. -/
theorem inScope_nil (ctx : Context) : inScope (body ctx []) = pure () := by
  funext w
  show (Except.ok (), { w with vars := w.vars.drop (w.vars.length - w.vars.length) }) = _
  rw [Nat.sub_self]
  rfl

end

end Abacus.Meaning

namespace Abacus.Meaning.Abreast

open Abacus.Flow (Value)
open Abacus.Machine
open Abacus.Lowering (SymbolId SymbolTable Plan Recording)
open Abacus.Lowering.Plan (Extends)

variable {opened symbols symbols₁ : SymbolTable} {ω σ : Plan} {env : List (String × Number)}
  {frame : Frame} {name : String} {x : SymbolId} {v : Value} {n : Number}

/-- What is written where lowering is. -/
theorem script_write (e : Extends (σ.write x v) ω) : ∃ later, ω.record.script σ.current =
    σ.record.script σ.current ++ .write x v :: later := by
  obtain ⟨later, hlater⟩ := e.script σ.current
  refine ⟨later, ?_⟩
  rw [hlater, show (σ.write x v).record.script σ.current = _ from Recording.happen_self ..,
    List.append_assoc, List.singleton_append]

theorem define (h : Abreast opened ω σ symbols env frame) (hω : ω.Whole) (horderly : symbols.Orderly)
    (hdefine : symbols.define name .var = .ok (x, symbols₁)) (e : Extends (σ.write x v) ω)
    (hv : frame.value? v = some n.scalar) :
    Abreast opened ω (σ.write x v) symbols₁ ((name, n) :: env) frame := by
  obtain ⟨later, hscript⟩ := script_write e
  have hbeside := Beside.define h hω horderly hdefine hscript hv
  rwa [← show (σ.write x v).record.script σ.current = _ from Recording.happen_self ..] at hbeside

theorem replace (h : Abreast opened ω σ symbols env frame) (hω : ω.Whole) (hglobal : opened.Global)
    (horderly : symbols.Orderly) (hfind : symbols.findVariable name = .ok x)
    (e : Extends (σ.write x v) ω) (hv : frame.value? v = some n.scalar) :
    Abreast opened ω (σ.write x v) symbols (Meaning.replace name n env) frame := by
  obtain ⟨later, hscript⟩ := script_write e
  have hbeside := Beside.replace h hω hglobal horderly hfind hscript hv
  rwa [← show (σ.write x v).record.script σ.current = _ from Recording.happen_self ..] at hbeside

end Abacus.Meaning.Abreast

namespace Abacus.Lowering.Plan

open Abacus.Flow (Value Block Ty Inst Terminator)
open Abacus.Machine
open Abacus.Meaning

variable {S : Setting} {config : FaultConfig} {opened symbols symbols' : SymbolTable} {ω σ σ' : Plan}
  {ctx : Context} {depth : Nat} {frame : Frame} {w : World} {b : Bool} {r : Option Value}

/-- What is evaluated. -/
def StatementPart.eval (ctx : Context) : StatementPart → Eval (Option Number)
  | .one t => statement ctx t
  | .all ts => statements ctx ts

/-- What statements lead to: the activation has come to where lowering was in `σ'`, and the value of
the last of them that is an expression holds its number. -/
structure Settles (opened : SymbolTable) (ω σ σ' : Plan) (symbols : SymbolTable) (frame : Frame)
    (r : Option Value) (n? : Option Number) (w : World) (after : Frame) : Prop where
  comes : Comes opened ω σ σ' symbols w.vars frame after
  holds : r.map after.value? = n?.map fun n => some n.scalar

/-! ## Simple statements -/

/-- An expression that is a statement gives its value. -/
theorem statement_eq {t : Tree} {vs : List Value} (h : Values config symbols (.expr t) σ b vs σ') :
    statement ctx t = (do return some (← expression ctx t)) := by
  cases h <;> rfl

section

variable (hS : Scene S config opened ω ctx depth) (hσ : σ.Ready) (e : Extends σ' ω)
  (ha : Abreast opened ω σ symbols w.vars frame)
include hS hσ e ha

theorem expression_follows {t : Tree} {v : Value} (h : Values config symbols (.expr t) σ b [v] σ') :
    Meaning.Follows S (depth + 1) frame w (StatementPart.eval ctx (.one t))
      (Settles opened ω σ σ' symbols frame (some v)) := by
  rw [StatementPart.eval, statement_eq h]
  refine .bind (h.follows hS hσ e ha) fun n w₁ f₁ hyields => .pure ?_
  exact ⟨hyields.vars ▸ hyields.comes, congrArg some hyields.value⟩

/-- A new variable gets the number of an expression. -/
theorem letVar_follows {span : Span} {name : String} {value : Tree} {σ₁ : Plan} {v : Value}
    {x : SymbolId} (horderly : symbols.Orderly) (h : Values config symbols (.expr value) σ b [v] σ₁)
    (hdefine : symbols.define name .var = .ok (x, symbols'))
    (hσ' : σ' = (σ₁.declare x (σ₁.builder.ty v)).write x v) :
    Meaning.Follows S (depth + 1) frame w (StatementPart.eval ctx (.one (.node span (.letVar name value))))
      (Settles opened ω σ σ' symbols' frame none) := by
  subst hσ'
  have h₁ := h.givesOne hσ
  obtain ⟨-, hadvance⟩ := advance_introduce h₁.ready x (σ₁.builder.ty v) h₁.has
  refine .bind (h.follows hS hσ (hadvance.since.extends'.trans e) ha) fun n w₁ f₁ hyields => ?_
  have hnew : introduce name n w₁ = (.ok (), { w₁ with vars := (name, n) :: w₁.vars }) := rfl
  refine .past hnew rfl (.pure ⟨⟨?_, ?_⟩, rfl⟩)
  · exact Abreast.define (σ := σ₁.declare x _) hyields.abreast hS.whole horderly hdefine e hyields.value
  · exact hyields.comes.retains

/-- A variable gets the number of an expression, converted to its type. -/
theorem setVar_follows {span : Span} {name : String} {value : Tree} {σ₁ σ₂ : Plan} {v v' : Value}
    {x : SymbolId} {ty : Ty} (horderly : symbols.Orderly)
    (h : Values config symbols (.expr value) σ b [v] σ₁) (hfind : symbols.findVariable name = .ok x)
    (htype : σ₁.known.type? x = some ty) (hcoerced : Coerced σ₁ v ty v' σ₂)
    (hσ' : σ' = σ₂.write x v') :
    Meaning.Follows S (depth + 1) frame w (StatementPart.eval ctx (.one (.node span (.setVar name value))))
      (Settles opened ω σ σ' symbols frame none) := by
  subst hσ'
  have h₁ := h.givesOne hσ
  have h₂ := hcoerced.gives h₁.ready h₁.has
  have e₂ := (advance_write h₂.ready x v').since.extends'.trans e
  have e₁ := h₂.advance.since.extends'.trans e₂
  refine .bind (h.follows hS hσ e₁ ha) fun n w₁ f₁ hyields => ?_
  -- The variable holds a number of its type.
  obtain ⟨_, _, hcourse, hmirror⟩ := hyields.abreast
  obtain ⟨old, hlookup, hlatest⟩ := hmirror.lookup hS.global hfind
  obtain ⟨_, hscalar, hty⟩ := hcourse.typed hlatest
  cases hscalar
  have hlike : n.like old = n.inType ty := by
    rw [e₁.type htype] at hty
    rw [Number.like_eq, Option.some.inj hty]
  obtain ⟨f₂, hleads, hcomes₂, hv'⟩ := hcoerced.makes (p := S.program) h₁.ready h₁.has hS.whole.sound
    e₂ hyields.abreast hyields.value
  have hcomes := hyields.comes.trans (hyields.vars ▸ hcomes₂) h₁.advance.since.extends'
  refine .steps hleads (.past (assign_ok hlookup) rfl (.pure ⟨⟨?_, hcomes.retains⟩, rfl⟩))
  rw [hlike]
  exact hcomes₂.abreast.replace hS.whole hS.global horderly hfind e hv'

/-- A value is given back as an integer. -/
theorem giveBack_follows {span : Span} {value : Tree} {σ₁ σ₂ : Plan} {v v' : Value}
    {post : Option Number → World → Frame → Prop} (h : Values config symbols (.expr value) σ b [v] σ₁)
    (hcoerced : Coerced σ₁ v .int v' σ₂) (hreturned : Returned σ₂ v' σ') :
    Meaning.Follows S (depth + 1) frame w (StatementPart.eval ctx (.one (.node span (.giveBack value)))) post := by
  have h₁ := h.givesOne hσ
  have h₂ := hcoerced.gives h₁.ready h₁.has
  obtain ⟨-, hadvance, hends, -⟩ := hreturned.stages h₂.ready h₂.has
  have e₂ := hadvance.since.extends'.trans e
  have e₁ := h₂.advance.since.extends'.trans e₂
  refine .bind (h.follows hS hσ e₁ ha) fun n w₁ f₁ hyields => ?_
  obtain ⟨f₂, hleads, hcomes₂, hv'⟩ := hcoerced.makes (p := S.program) h₁.ready h₁.has hS.whole.sound
    e₂ hyields.abreast hyields.value
  obtain ⟨_, _, hcourse, -⟩ := hcomes₂.abreast
  obtain ⟨m, hcloses⟩ : ∃ m, Closes S.program f₂ m [] (.returned (.int n.toInt)) :=
    hcourse.reached.ret hS.whole.sound (hends e) hv'
  exact .steps hleads (.returns rfl hcloses (List.append_nil _).symm)

end

/-! ## Scopes -/

section

variable {k : Nat} {ts : List Tree} {σ₀ σ₁ : Plan} {symbols₁ symbols₂ : SymbolTable}
  (hwork : Meaning.Follows S k frame w (statements ctx ts) (Settles opened ω σ₀ σ₁ symbols₁ frame r))
  (hgrown : SymbolTable.Grown symbols.pushScope symbols₁) (hpop : symbols₁.popScope = .ok symbols₂)
include hwork hgrown hpop

/-- A body leads back to the variables from before it. -/
theorem scope_follows (ha : Abreast opened ω σ₀ symbols.pushScope w.vars frame) :
    Meaning.Follows S k frame w (inScope (body ctx ts)) fun _ w' after =>
      Comes opened ω σ₀ σ₁ symbols₂ w'.vars frame after := by
  have hbody : Meaning.Follows S k frame w (body ctx ts) fun _ w' after =>
      Comes opened ω σ₀ σ₁ symbols₁ w'.vars frame after := hwork.bind fun _ _ _ h => .pure h.comes
  refine hbody.inScope.mono ?_
  rintro _ _ after ⟨w₁, ⟨⟨p, latest, hcourse, hmirror⟩, hkeeps⟩, rfl⟩
  obtain ⟨_, _, -, (hbefore : Mirror opened _ symbols w.vars)⟩ := ha
  exact ⟨⟨p, latest, hcourse, hmirror.popScope hbefore hgrown hpop⟩, hkeeps⟩

/-- A body at the end of which control goes to another block. -/
theorem arm_follows {join : Block} {first : Nat}
    (ha : Abreast opened ω σ₀ symbols.pushScope w.vars frame) (hω : ω.Whole)
    (hends : ω.Ends σ₁.current (σ₁.record.script σ₁.current) (.jump join))
    (hphis : ∀ phi ∈ (ω.builder.info join).phis, first ≤ phi.index)
    (hfirst : first ≤ σ₀.builder.valueCount) :
    Meaning.Follows S k frame w (inScope (body ctx ts)) fun _ w' after =>
      Arrives opened ω first frame join [] symbols₂ w'.vars after := by
  refine (scope_follows hwork hgrown hpop ha).goOn fun _ w' after hcomes => ?_
  obtain ⟨last, hleads, harrives⟩ := hcomes.abreast.jump hω hends hphis S.program
  exact ⟨last, hleads, harrives.beside, fun u hu =>
    (harrives.keeps u hu).trans (hcomes.retains u (Nat.lt_of_lt_of_le hu hfirst))⟩

end

/-! ## Conditions -/

theorem statement_ifElse (ctx : Context) (span : Span) (condition thenBody : Tree)
    (elseBody : Option Tree) : statement ctx (.node span (.ifElse condition thenBody elseBody)) = (do
      let n ← expression ctx condition
      inScope (body ctx (if n.isNonzero then thenBody.items else elseItems elseBody))
      return none) := by
  cases elseBody with
  | none =>
    refine bind_congr fun n => ?_
    cases n.isNonzero with
    | false =>
      show (pure none : Eval (Option Number)) = (do inScope (body ctx []); return none)
      rw [inScope_nil]
      rfl
    | true =>
      rw [items_eq]
      rfl
  | some elseBody =>
    refine bind_congr fun n => ?_
    cases n.isNonzero <;> (simp only [items_eq]; rfl)

/-- The parts of a condition. -/
theorem ifElse_follows {span : Span} {condition thenBody : Tree} {elseBody : Option Tree}
    {b₁ b₂ b₃ : Bool} {v test : Value} {σ₁ σ₂ σ₃ σ₄ σ₅ : Plan} {r₂ r₃ : Option Value}
    {symbols₁ symbols₂ symbols₃ symbols₄ : SymbolTable}
    (hS : Scene S config opened ω ctx depth) (hσ : σ.Ready) (e : Extends σ' ω)
    (ha : Abreast opened ω σ symbols w.vars frame)
    (hvalue : Values config symbols (.expr condition) σ b₁ [v] σ₁) (htested : Tested σ₁ v test σ₂)
    (hsplit : Split σ₂ test σ₃)
    (hthen : Statements config (.all thenBody.items) symbols.pushScope σ₃ b₂ r₂ symbols₁ σ₄)
    (hpop₁ : symbols₁.popScope = .ok symbols₂)
    (helse : Statements config (.all (elseItems elseBody)) symbols₂.pushScope (switch σ₂ σ₄) b₃ r₃
      symbols₃ σ₅)
    (hpop₂ : symbols₃.popScope = .ok symbols₄) (hjoined : Joined σ₂ σ₅ σ')
    (hgrown₁ : SymbolTable.Grown symbols.pushScope symbols₁)
    (hgrown₂ : SymbolTable.Grown symbols₂.pushScope symbols₃)
    (ih₁ : ∀ {w frame}, Extends σ₄ ω → Abreast opened ω σ₃ symbols.pushScope w.vars frame →
      Meaning.Follows S (depth + 1) frame w (statements ctx thenBody.items)
        (Settles opened ω σ₃ σ₄ symbols₁ frame r₂))
    (ih₂ : ∀ {w frame}, Extends σ₅ ω →
      Abreast opened ω (switch σ₂ σ₄) symbols₂.pushScope w.vars frame →
      Meaning.Follows S (depth + 1) frame w (statements ctx (elseItems elseBody))
        (Settles opened ω (switch σ₂ σ₄) σ₅ symbols₃ frame r₃)) :
    Meaning.Follows S (depth + 1) frame w
      (StatementPart.eval ctx (.one (.node span (.ifElse condition thenBody elseBody))))
      (Settles opened ω σ σ' symbols₄ frame none) := by
  have h₁ := hvalue.givesOne hσ
  have h₂ := htested.gives h₁.ready h₁.has
  obtain ⟨hfirst, hscript₃, hsplitAt⟩ := hsplit.stages h₂.ready h₂.has
  obtain ⟨hready₄, hadvance₄, -⟩ := hthen.advance hfirst.ready
  have hsecond := hfirst.secondBody h₂.ready hready₄ hadvance₄
  obtain ⟨hready₅, hadvance₅, -⟩ := helse.advance hsecond.ready
  obtain ⟨-, -, e₅, hscript, hcurrent, hjumps₅⟩ := hsecond.joined hready₄.sound
    (fun a ha => hadvance₄.spine a (hfirst.spine ▸ List.mem_cons_of_mem _ ha)) hready₅ hadvance₅ hjoined
  have hω := hS.whole
  have eω₅ := e₅.trans e
  have eω₄ := hsecond.extends'.trans (hadvance₅.since.extends'.trans eω₅)
  have eω₃ := hadvance₄.since.extends'.trans eω₄
  have eω₂ := hfirst.since.extends'.trans eω₃
  have hat := hsplitAt eω₃
  have hphis : ∀ phi ∈ (ω.builder.info (σ₂.block 2)).phis, σ₂.builder.valueCount ≤ phi.index :=
    fun _ hphi => eω₂.le_phi h₂.ready.sound hω.sound (Nat.le_add_right _ 2) hphi
  rw [StatementPart.eval, statement_ifElse]
  refine .bind (hvalue.follows hS hσ (h₂.advance.since.extends'.trans eω₂) ha) fun n w₁ f₁ hyields => ?_
  -- A truth value decides which body comes next.
  obtain ⟨f₂, hleads₂, hcomes₂, htest⟩ := htested.makes (p := S.program) h₁.ready h₁.has hω.sound eω₂
    hyields.abreast hyields.value
  have hcomes := hyields.comes.trans (hyields.vars ▸ hcomes₂) h₁.advance.since.extends'
  have hone : ω.OneWay (if n.isNonzero then σ₂.block 0 else σ₂.block 1) σ₂.current := by
    split
    · exact hat.toFirst
    · exact hat.toSecond
  obtain ⟨f₃, hleads₃, h₃⟩ := hcomes₂.abreast.branch hω hat.branches htest rfl hone
    σ₂.builder.valueCount S.program
  refine .steps hleads₂ (.steps hleads₃ ?_)
  have harm : Meaning.Follows S (depth + 1) f₃ w₁
      (inScope (body ctx (if n.isNonzero then thenBody.items else elseItems elseBody)))
      fun _ w' after => Arrives opened ω σ₂.builder.valueCount f₃ (σ₂.block 2) [] symbols₄ w'.vars
        after := by
    cases hn : n.isNonzero with
    | true =>
      rw [hn] at h₃
      have hstart : Abreast opened ω σ₃ symbols.pushScope w₁.vars f₃ := by
        unfold Abreast
        rw [hscript₃, hfirst.current]
        exact h₃.beside
      refine (arm_follows (ih₁ eω₄ hstart) hgrown₁ hpop₁ hstart hω (hsecond.jumps ?_) hphis
        hfirst.since.extends'.valueCount).mono fun _ w' after h => ⟨h.beside.of_scopes ?_, h.keeps⟩
      · exact hadvance₅.since.extends'.trans eω₅
      · exact (hgrown₂.popped hpop₂).1
    | false =>
      rw [hn] at h₃
      have hstart : Abreast opened ω (switch σ₂ σ₄) symbols₂.pushScope w₁.vars f₃ := by
        unfold Abreast
        rw [hsecond.script, hsecond.current]
        have hbeside : Beside opened ω (σ₂.block 1) [] symbols₂ w₁.vars f₃ :=
          h₃.beside.of_scopes (hgrown₁.popped hpop₁).1
        exact hbeside
      exact arm_follows (ih₂ eω₅ hstart) hgrown₂ hpop₂ hstart hω (hjumps₅ e) hphis
        hsecond.since.extends'.valueCount
  -- Both bodies lead to the same block.
  refine harm.bind fun _ w₂ f₄ h₄ => .pure ⟨⟨?_, fun u hu => ?_⟩, rfl⟩
  · rw [hscript, hcurrent]
    exact h₄.beside
  · have hu₂ := Nat.lt_of_lt_of_le hu (h₁.advance.trans h₂.advance).since.extends'.valueCount
    rw [h₄.keeps u hu₂, h₃.keeps u hu₂, hcomes.retains u hu]

/-! ## Loops -/

theorem statement_forLoop (ctx : Context) (span : Span) (index : String) (bound loopBody : Tree) :
    statement ctx (.node span (.forLoop index bound loopBody)) = (do
      let n ← expression ctx bound
      inScope do
        introduce index (.int 0)
        count index n.toInt (inScope (body ctx loopBody.items)) ctx.rounds
      return none) := by
  rw [← items_eq]
  rfl

/-- The variable of a loop is new and starts from 0. -/
theorem countFrom_makes {p : Program} {index : String} {x : SymbolId} {symbols₁ : SymbolTable}
    {env : List (String × Number)} (hω : ω.Whole) (hσ : σ.Ready) (e : Extends (countFrom σ x) ω)
    (horderly : symbols.Orderly) (hdefine : symbols.pushScope.define index .var = .ok (x, symbols₁))
    (ha : Abreast opened ω σ symbols env frame) : ∃ after, (∃ n, Leads p frame n [] after) ∧
      Comes opened ω σ (countFrom σ x) symbols₁ ((index, .int 0) :: env) frame after := by
  have hstart : Abreast opened ω (σ.declare x .int) symbols.pushScope env frame := ha
  obtain ⟨after, hleads, hcomes, hzero⟩ := hstart.emit (p := p) (hσ.declare x .int)
    ((extends_write _ x _).trans e) (.intConst 0) rfl rfl
  exact ⟨after, hleads, hcomes.abreast.define hω horderly.pushScope hdefine e
    (n := .int 0) hzero, hcomes.retains⟩

/-- The parts of a loop. -/
theorem forLoop_follows {span : Span} {index : String} {bound loopBody : Tree} {b₁ b₂ : Bool}
    {v limit : Value} {x : SymbolId} {σ₁ σ₂ σ₃ σ₄ : Plan}
    {symbols₁ symbols₂ symbols₃ symbols₄ : SymbolTable}
    (hS : Scene S config opened ω ctx depth) (hσ : σ.Ready) (hk : σ.Knows opened symbols)
    (e : Extends σ' ω) (ha : Abreast opened ω σ symbols w.vars frame)
    (hvalue : Values config symbols (.expr bound) σ b₁ [v] σ₁) (hcoerced : Coerced σ₁ v .int limit σ₂)
    (hdefine : symbols.pushScope.define index .var = .ok (x, symbols₁))
    (hhead : LoopHead (countFrom σ₂ x) x limit σ₃)
    (hbody : Statements config (.all loopBody.items) symbols₁.pushScope σ₃ b₂ r symbols₂ σ₄)
    (hpop₁ : symbols₂.popScope = .ok symbols₃) (htail : LoopTail (countFrom σ₂ x) x σ₄ σ')
    (hpop₂ : symbols₃.popScope = .ok symbols₄)
    (hgrown : SymbolTable.Grown symbols₁.pushScope symbols₂)
    (ih : ∀ {w frame}, Extends σ₄ ω → Abreast opened ω σ₃ symbols₁.pushScope w.vars frame →
      Meaning.Follows S (depth + 1) frame w (statements ctx loopBody.items)
        (Settles opened ω σ₃ σ₄ symbols₂ frame r)) :
    Meaning.Follows S (depth + 1) frame w
      (StatementPart.eval ctx (.one (.node span (.forLoop index bound loopBody))))
      (Settles opened ω σ σ' symbols₄ frame none) := by
  have hω := hS.whole
  have h₁ := hvalue.givesOne hσ
  have h₂ := hcoerced.gives h₁.ready h₁.has
  obtain ⟨hready, hadvance⟩ := advance_countFrom h₂.ready x
  have hlimit := hadvance.has h₂.ready.sound h₂.has
  obtain ⟨hloop, hscript₃, hheadAt⟩ := hhead.stages hready hlimit
  obtain ⟨hready₄, hadvance₄, -⟩ := hbody.advance hloop.ready
  obtain ⟨-, -, e₄, hcurrent, hscript, htailAt⟩ := htail.stages hloop hready hready₄ hadvance₄
  have eω₄ := e₄.trans e
  have eω₃ := hadvance₄.since.extends'.trans eω₄
  have eω := hloop.since.extends'.trans eω₃
  have eω₂ := hadvance.since.extends'.trans eω
  obtain ⟨_, test, hat, htest⟩ := hheadAt eω₃
  obtain ⟨_, one, next, htailAt, hone, hnext, hne⟩ := htailAt e
  have hcount := (hloop.since.extends'.trans hadvance₄.since.extends').valueCount
  have hphis : ∀ phi ∈ (ω.builder.info ((countFrom σ₂ x).block 0)).phis,
      (countFrom σ₂ x).builder.valueCount ≤ phi.index :=
    fun _ hphi => eω.le_phi hready.sound hω.sound (Nat.le_add_right _ 0) hphi
  -- What is known of the variable.
  have hk₂ := hk.behind (h₁.advance.behind.trans h₂.advance.behind) fun x =>
    (hcoerced.silent.type x).trans (hvalue.type? x)
  obtain ⟨hk₃, htype, -⟩ : _ ∧ _ ∧ ∀ {ω}, Extends _ ω → Tidy config opened ω σ₂ _ false :=
    hk₂.pushScope.countFrom h₂.ready hdefine
  have hindex : Indexed ω opened symbols₁ index x :=
    ⟨hω, hS.global, hk₃.orderly, SymbolTable.findVariable_define hdefine, eω.type htype⟩
  rw [StatementPart.eval, statement_forLoop]
  refine .bind (hvalue.follows hS hσ (h₂.advance.since.extends'.trans eω₂) ha) fun n w₁ f₁ hyields => ?_
  -- Up to the header.
  obtain ⟨f₂, hleads₂, hcomes₂, hbound⟩ := hcoerced.makes (p := S.program) h₁.ready h₁.has hω.sound eω₂
    hyields.abreast hyields.value
  obtain ⟨f₃, hleads₃, hcomes₃⟩ := countFrom_makes (p := S.program) hω h₂.ready eω hk.orderly hdefine
    hcomes₂.abreast
  obtain ⟨f₄, hleads₄, h₄⟩ := hcomes₃.abreast.jump hω hat.jumps hphis S.program
  have hbound₄ : f₄.value? limit = some (.int n.toInt) :=
    (h₄.keeps limit (hready.sound.lt_of_has hlimit)).trans (hcomes₃.keeps h₂.ready.sound h₂.has hbound)
  refine .steps hleads₂ (.steps hleads₃ (.steps hleads₄ ?_))
  -- A round leads from the start of the body to its end.
  have hround : ∀ {w frame}, Beside opened ω ((countFrom σ₂ x).block 1) [] symbols₁ w.vars frame →
      Meaning.Follows S (depth + 1) frame w (inScope (body ctx loopBody.items)) fun _ w' after =>
        Arrives opened ω (countFrom σ₂ x).builder.valueCount frame σ₄.current
          (σ₄.record.script σ₄.current) symbols₁ w'.vars after := by
    intro w frame hbeside
    have hstart : Abreast opened ω σ₃ symbols₁.pushScope w.vars frame := by
      unfold Abreast
      rw [hscript₃, hloop.current]
      exact hbeside
    refine (scope_follows (ih eω₄ hstart) hgrown hpop₁ hstart).mono fun _ w' after h =>
      ⟨h.abreast.of_scopes (hgrown.popped hpop₁).1.symm, fun u hu => h.retains u ?_⟩
    exact Nat.lt_of_lt_of_le hu hloop.since.extends'.valueCount
  have hloops := count_follows hindex hat htailAt htest (Nat.le_trans hcount hone)
    (Nat.le_trans hcount hnext) hne hphis (hready.sound.lt_of_has hlimit) hround ctx.rounds
    (Nat.le_of_eq hS.rounds) (w := { w₁ with vars := (index, .int 0) :: w₁.vars }) h₄.beside hbound₄
  rw [hS.rounds] at hloops ⊢
  have hnew : introduce index (.int 0) w₁ = (.ok (), { w₁ with vars := (index, .int 0) :: w₁.vars }) := rfl
  refine (Meaning.Follows.inScope (.past hnew rfl hloops)).bind ?_
  rintro _ _ f₅ ⟨w₂, ⟨⟨p, latest, hcourse, hmirror⟩, hkeeps⟩, rfl⟩
  refine .pure ⟨⟨?_, fun u hu => ?_⟩, rfl⟩
  · obtain ⟨_, _, -, hbefore⟩ := hyields.abreast
    have hinner := hmirror.of_scopes (hgrown.popped hpop₁).1
    rw [hscript, hcurrent]
    exact ⟨p, latest, hcourse, hinner.popScope hbefore
      ((SymbolTable.Grown.define hdefine).trans (hgrown.popScope hpop₁)) hpop₂⟩
  · have hu₁ := Nat.lt_of_lt_of_le hu h₁.advance.since.extends'.valueCount
    have hu₂ := Nat.lt_of_lt_of_le hu₁ h₂.advance.since.extends'.valueCount
    have hu₃ := Nat.lt_of_lt_of_le hu₂ hadvance.since.extends'.valueCount
    rw [hkeeps u hu₃, h₄.keeps u hu₃, hcomes₃.retains u hu₂, hcomes₂.retains u hu₁,
      hyields.comes.retains u hu]

/-! ## All statements -/

/-- One statement after the other. The value is that of the last one that has one. -/
theorem Settles.trans {σ₁ : Plan} {symbols₁ : SymbolTable} {r₁ r₂ : Option Value}
    {n₁ n₂ : Option Number} {w₁ w₂ : World} {mid after : Frame}
    (h₁ : Settles opened ω σ σ₁ symbols₁ frame r₁ n₁ w₁ mid)
    (h₂ : Settles opened ω σ₁ σ' symbols' mid r₂ n₂ w₂ after) (e : Extends σ σ₁)
    (hr : ∀ v ∈ r₁, v.index < σ₁.builder.valueCount) :
    Settles opened ω σ σ' symbols' frame (r₂ <|> r₁) (n₂ <|> n₁) w₂ after where
  comes := h₁.comes.trans h₂.comes e
  holds := by
    have hkeeps : r₁.map after.value? = r₁.map mid.value? :=
      Option.map_congr fun v hv => h₂.comes.retains v (hr v hv)
    have hholds := h₂.holds
    cases r₂ with
    | none =>
      cases n₂ with
      | none => exact hkeeps.trans h₁.holds
      | some n => cases hholds
    | some v =>
      cases n₂ with
      | none => cases hholds
      | some n => exact hholds

/-- An activation does what the evaluation of statements does. -/
theorem Statements.follows (hS : Scene S config opened ω ctx depth) {part : StatementPart}
    (h : Statements config part symbols σ b r symbols' σ') (hσ : σ.Ready)
    (hk : σ.Knows opened symbols) (e : Extends σ' ω) {w : World} {frame : Frame}
    (ha : Abreast opened ω σ symbols w.vars frame) :
    Meaning.Follows S (depth + 1) frame w (part.eval ctx)
      (Settles opened ω σ σ' symbols' frame r) := by
  induction h generalizing w frame with
  | letVar hvalue hdefine => exact letVar_follows hS hσ e ha hk.orderly hvalue hdefine rfl
  | setVar hvalue hfind htype hcoerced =>
    exact setVar_follows hS hσ e ha hk.orderly hvalue hfind htype hcoerced rfl
  | giveBack hvalue hcoerced hreturned => exact giveBack_follows hS hσ e ha hvalue hcoerced hreturned
  | ifElse hvalue htested hsplit hthen hpop₁ helse hpop₂ hjoined ih₁ ih₂ =>
    have h₁ := hvalue.givesOne hσ
    have h₂ := htested.gives h₁.ready h₁.has
    have hk₂ := hk.behind (h₁.advance.behind.trans h₂.advance.behind) fun x =>
      (htested.silent.type x).trans (hvalue.type? x)
    have hfirst := hsplit.firstBody h₂.ready h₂.has
    have hk₃ := (hk₂.behind hfirst.behind hsplit.silent.type).pushScope
    have hkept₁ := hthen.kept hfirst.ready hk₃
    obtain ⟨hready₁, hadvance₁, -⟩ := hthen.advance hfirst.ready
    have hsecond := hfirst.secondBody h₂.ready hready₁ hadvance₁
    have hk₄ := (hk₂.popScope rfl hsecond.behind hkept₁.knows hkept₁.grown hpop₁
      (silent_switch _ _).type).pushScope
    exact ifElse_follows hS hσ e ha hvalue htested hsplit hthen hpop₁ helse hpop₂ hjoined hkept₁.grown
      (helse.kept hsecond.ready hk₄).grown (fun e hstart => ih₁ hfirst.ready hk₃ e hstart)
      fun e hstart => ih₂ hsecond.ready hk₄ e hstart
  | forLoop hvalue hcoerced hdefine hhead hbody hpop₁ htail hpop₂ ih =>
    have h₁ := hvalue.givesOne hσ
    have h₂ := hcoerced.gives h₁.ready h₁.has
    have hk₂ := hk.behind (h₁.advance.behind.trans h₂.advance.behind) fun x =>
      (hcoerced.silent.type x).trans (hvalue.type? x)
    obtain ⟨hready₃, hadvance₃⟩ := advance_countFrom h₂.ready _
    obtain ⟨hk₃, -, -⟩ : _ ∧ _ ∧ ∀ {ω}, Extends _ ω → Tidy config opened ω _ _ false :=
      hk₂.pushScope.countFrom h₂.ready hdefine
    have hloop := hhead.loopBody hready₃ (hadvance₃.has h₂.ready.sound h₂.has)
    have hk₄ := (hk₃.behind hloop.behind hhead.silentBut.type).pushScope
    exact forLoop_follows hS hσ hk e ha hvalue hcoerced hdefine hhead hbody hpop₁ htail hpop₂
      (hbody.kept hloop.ready hk₄).grown fun e hstart => ih hloop.ready hk₄ e hstart
  | expression hvalue => exact expression_follows hS hσ e ha hvalue
  | nil => exact .pure ⟨.rfl' ha, rfl⟩
  | cons hfirst hrest ih₁ ih₂ =>
    obtain ⟨hready₁, hadvance₁, hr₁⟩ := hfirst.advance hσ
    have hk₁ := (hfirst.kept hσ hk).knows
    have e₁ := (hrest.advance hready₁).2.1.since.extends'.trans e
    refine .bind (ih₁ hσ hk e₁ ha) fun n? w₁ f₁ hsettles₁ => ?_
    refine .bind (ih₂ hready₁ hk₁ e hsettles₁.comes.abreast) fun later? w₂ f₂ hsettles₂ => .pure ?_
    exact hsettles₁.trans hsettles₂ hadvance₁.since.extends' fun v hv =>
      hready₁.sound.lt_of_has (hr₁ v hv)

end Abacus.Lowering.Plan
