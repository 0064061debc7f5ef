import Abacus.Proofs.Lowering.Totality

/-!
# Plans that fit the names in scope

A name in scope that stands for a variable can be read: the variable has been written on every way,
and it has the type of a number. So has every value that an expression gives, which is why
conversions do not fail.

* `Plan.Fit` — the plan of a body fits the names in scope;
* `Sound.type_enters` — the value that a variable has in a block is of the type of the variable;
* `Values.numbers` — expressions give numbers;
* `Values.fit`, `Statements.fit` — expressions and statements keep the plan fit;
* `Statements.number` — the value of statements is a number.
-/

namespace Abacus.Flow

/-- The types of numbers. -/
def Ty.IsNumber (ty : Ty) : Prop := ty = .int ∨ ty = .float

end Abacus.Flow

namespace Abacus.Lowering.Plan

open Abacus.Flow (Value Block Ty Inst Terminator Builder)

variable {σ σ₁ σ₂ σ' ω : Plan} {x : SymbolId} {v v' : Value} {ty : Ty} {b : Bool}
  {config : FaultConfig} {opened symbols symbols₀ symbols₁ symbols₂ symbols' : SymbolTable}

/-! ## Types of variables and values -/

/-- The value that a variable has on entering a block is of the type of the variable. -/
theorem Sound.type_enters (hσ : σ.Sound) (hneat : Neat σ σ) {c : Block}
    (hc : σ.spine c ≠ []) (h : σ.record.Enters x c v) :
    σ.known.type? x = some (σ.builder.ty v) := by
  induction hn : (σ.spine c).length using Nat.strongRecOn generalizing c with
  | ind n ih =>
    subst hn
    cases h with
    | phi _ howner => exact (hσ.record.coherent.owned howner).2.2.2.1
    | @chain q hsealed hpreds hvalue _ =>
      cases hwrite : Event.lastWrite? x (σ.record.script q) with
      | some w =>
        obtain rfl : w = v := Option.some.inj ((hσ.record.written hwrite).symm.trans hvalue)
        obtain ⟨front, back, hscript⟩ := Event.exists_of_lastWrite? hwrite
        refine hneat.writes (b := q) ?_
        rw [hscript]
        simp
      | none =>
        have hq : σ.spine q ≠ [] := hσ.open_source (c := c) <| by
          rw [show σ.builder.preds c = _ from hpreds]
          exact List.mem_singleton_self q
        exact ih _ (hσ.spine_shorter ⟨hsealed, hpreds⟩ hc) hq (hσ.record.bound hvalue hwrite) rfl

/-- A read gives a value of the type of the variable. -/
theorem Sound.type_read (hσ : σ.Sound) {d : Draft} (hneat : Neat (σ.read x v d) (σ.read x v d))
    (hread : (Drafting.read x σ.current).on σ.record.draft = (.ok v, d)) :
    (σ.read x v d).known.type? x = some ((σ.read x v d).builder.ty v) := by
  obtain ⟨hsound, e, -, -⟩ := hσ.read hread
  have hscript : (σ.read x v d).record.script σ.current =
      σ.record.script σ.current ++ .read x v :: [] := Recording.happen_self ..
  rcases hsound.record.read hscript with hwrite | ⟨-, henters⟩
  · obtain ⟨front, back, hwrite⟩ := Event.exists_of_lastWrite? hwrite
    refine hneat.writes (b := σ.current) ?_
    rw [hscript, hwrite]
    simp
  · refine hsound.type_enters hneat ?_ henters
    rw [e.spine hσ.used]
    exact hσ.used

/-! ## Plans that fit -/

/-- The plan fits the names in scope. What is known of the names holds, what has been read and
written is in order in every plan that extends this one, and all variables are numbers. -/
structure Fit (opened : SymbolTable) (σ : Plan) (t : SymbolTable) : Prop where
  ready : σ.Ready
  knows : σ.Knows opened t
  neat : ∀ {ω : Plan}, ω.Sound → Extends σ ω → Neat ω σ
  numbers : ∀ {x ty}, σ.known.type? x = some ty → ty.IsNumber

/-- A name that stands for a variable can be read. -/
theorem Fit.readable (h : Fit opened σ symbols) {name : String}
    (hfind : symbols.findVariable name = .ok x) :
    ∃ ty, σ.known.type? x = some ty ∧ ty.IsNumber := by
  obtain ⟨a, -, v, hwrite⟩ := h.knows.findVariable hfind
  have htype := (h.neat h.ready.sound (.rfl' σ)).writes hwrite
  exact ⟨_, htype, h.numbers htype⟩

/-- What reads and writes no variable keeps what has been read and written in order. -/
theorem Silent.neat (hsilent : Silent σ σ') (h : Neat ω σ) : Neat ω σ' :=
  have htidy : Tidy FaultConfig.default SymbolTable.empty ω σ σ' false := hsilent.quiet
  htidy.neat h

/-- What reads and writes no variable keeps a plan fit. -/
theorem Fit.quiet (h : Fit opened σ symbols) (hready : σ'.Ready) (hb : Behind σ σ')
    (hsilent : Silent σ σ') : Fit opened σ' symbols where
  ready := hready
  knows := h.knows.behind hb hsilent.type
  neat hω e := hsilent.neat (h.neat hω (hb.extends'.trans e))
  numbers htype := h.numbers ((hsilent.type _).symm.trans htype)

theorem Fit.pushScope (h : Fit opened σ symbols) : Fit opened σ symbols.pushScope :=
  ⟨h.ready, h.knows.pushScope, h.neat, h.numbers⟩

/-! ## Expressions -/

/-- Expressions keep a plan fit. -/
theorem Values.fit {part : ValuePart} {vs : List Value}
    (hvalues : Values config symbols part σ b vs σ') (h : Fit opened σ symbols) :
    Fit opened σ' symbols where
  ready := (hvalues.gives h.ready).1
  knows := h.knows.behind (hvalues.gives h.ready).2.1.behind hvalues.type?
  neat hω e := (hvalues.tidy h.ready e h.knows.findVariable h.knows.functions).neat
    (h.neat hω ((hvalues.gives h.ready).2.1.since.extends'.trans e))
  numbers htype := h.numbers ((hvalues.type? _).symm.trans htype)

theorem Computed.number {op : InfixOp} {lhs rhs : Value}
    (h : Computed config σ op ty lhs rhs b v σ') : (σ'.builder.ty v).IsNumber := by
  cases h with
  | floatCompare _ _ h₁ => exact .inl (ty_emit ..)
  | intCompare _ _ h₁ => exact .inl (ty_emit ..)
  | floatArith => exact .inr (ty_emit ..)
  | divide _ _ hdivided =>
    cases hdivided
    exact .inl (ty_emit ..)
  | intArith => exact .inl (ty_emit ..)

theorem Negated.number (h : Negated σ v v' σ') : (σ'.builder.ty v').IsNumber := by
  cases h with
  | float => exact .inr (ty_emit ..)
  | int => exact .inl (ty_emit ..)

theorem Called.number {name : String} {arguments : List Value} {handled : Bool}
    (h : Called config σ name arguments handled v σ') (hσ : σ.Ready)
    (harguments : ∀ u ∈ arguments, σ.Has σ.current u) : (σ'.builder.ty v).IsNumber := by
  cases h with
  | plain => exact .inl (ty_emit ..)
  | handled h =>
    obtain ⟨-, -, -, hat⟩ := h.stages hσ harguments
    obtain ⟨_, _, _, _, _, _, _, _, hat⟩ := hat (.rfl' σ')
    exact .inl (congrArg Flow.ValueInfo.ty hat.info)

/-- Expressions give numbers. -/
theorem Values.numbers {part : ValuePart} {vs : List Value}
    (hvalues : Values config symbols part σ b vs σ') (h : Fit opened σ symbols) :
    ∀ v ∈ vs, (σ'.builder.ty v).IsNumber := by
  have hone : ∀ {σ : Plan} {v : Value}, (σ.builder.ty v).IsNumber →
      ∀ u ∈ [v], (σ.builder.ty u).IsNumber := fun hv u hu => List.mem_singleton.1 hu ▸ hv
  induction hvalues with
  | integer => exact hone (.inl (ty_emit ..))
  | floating => exact hone (.inr (ty_emit ..))
  | ident hfind hread =>
    have hvalue : Values FaultConfig.default _ (.expr (.node .none (.ident _))) _ _ _ _ :=
      .ident hfind hread
    have h' := hvalue.fit h
    have htype := h.ready.sound.type_read (h'.neat h'.ready.sound (.rfl' _)) hread
    exact hone (h'.numbers htype)
  | infixOp _ _ hcombined =>
    obtain ⟨-, -, -, hcomputed⟩ := hcombined
    exact hone hcomputed.number
  | negate _ hnegated => exact hone hnegated.number
  | pi => exact hone (.inr (ty_emit ..))
  | call _ _ harguments hcalled =>
    obtain ⟨hready, -, hvs⟩ := harguments.gives h.ready
    exact hone (hcalled.number hready hvs)
  | nil => simp
  | cons hfirst hcoerced hrest ih₁ ih₂ =>
    have h₁ := hfirst.fit h
    have hgives := hcoerced.gives h₁.ready ((hfirst.gives h.ready).2.2 _ (by simp))
    have h₂ := h₁.quiet hgives.ready hgives.advance.behind hcoerced.silent
    intro u hu
    rcases List.mem_cons.1 hu with rfl | hu
    · have e := (hrest.gives h₂.ready).2.1.since.extends'
      exact .inl ((hgives.has.ty hgives.ready.sound e).trans hcoerced.ty)
    · exact ih₂ h₂ u hu

/-! ## Statements -/

/-- A new variable that has been declared and written keeps a plan fit if it is a number. -/
theorem Fit.withVariable (h : Fit opened σ symbols) (hready : σ'.Ready)
    (hadvance : Advance σ σ') (hknows : σ'.Knows opened symbols')
    (htidy : ∀ {ω}, Extends σ' ω → Tidy FaultConfig.default opened ω σ σ' false)
    (htype : σ'.known.type? x = some ty) (hnumber : ty.IsNumber)
    (hothers : ∀ y, y ≠ x → σ'.known.type? y = σ.known.type? y) : Fit opened σ' symbols' where
  ready := hready
  knows := hknows
  neat hω e := (htidy e).neat (h.neat hω (hadvance.since.extends'.trans e))
  numbers {y _} hy := by
    by_cases hyx : y = x
    · rw [hyx, htype] at hy
      exact Option.some.inj hy ▸ hnumber
    · exact h.numbers ((hothers y hyx).symm.trans hy)

/-- The symbol of a new name has no type yet. -/
theorem Fit.undeclared (h : Fit opened σ symbols) {name : String}
    (hdefine : symbols.define name .var = .ok (x, symbols')) : σ.known.type? x = none := by
  obtain ⟨rfl, -⟩ := SymbolTable.define_ok hdefine
  exact h.knows.undeclared _ (Nat.le_refl _)

theorem Fit.introduce (h : Fit opened σ symbols) {name : String}
    (hdefine : symbols.define name .var = .ok (x, symbols')) (hv : σ.Has σ.current v)
    (hnumber : (σ.builder.ty v).IsNumber) :
    Fit opened ((σ.declare x (σ.builder.ty v)).write x v) symbols' := by
  obtain ⟨hready, hadvance⟩ := advance_introduce h.ready x (σ.builder.ty v) hv
  obtain ⟨hknows, htidy⟩ := h.knows.introduce h.ready hdefine hv
  exact h.withVariable hready hadvance hknows htidy
    (type?_declare_self (h.undeclared hdefine) _) hnumber fun y hy => type?_declare_of_ne hy _

theorem Fit.type_countFrom (h : Fit opened σ symbols) {name : String}
    (hdefine : symbols.define name .var = .ok (x, symbols')) :
    (Plan.countFrom σ x).known.type? x = some .int := type?_declare_self (h.undeclared hdefine) _

theorem Fit.countFrom (h : Fit opened σ symbols) {name : String}
    (hdefine : symbols.define name .var = .ok (x, symbols')) :
    Fit opened (countFrom σ x) symbols' := by
  obtain ⟨hready, hadvance⟩ := advance_countFrom h.ready x
  obtain ⟨hknows, htype, htidy⟩ := h.knows.countFrom h.ready hdefine
  exact h.withVariable hready hadvance hknows htidy htype (.inl rfl)
    fun y hy => type?_declare_of_ne hy _

/-- Behind a body the names are those from before it. -/
theorem Fit.popScope (h : Fit opened σ symbols) (hscopes : symbols₀.scopes = symbols.scopes)
    (hready : σ'.Ready) (hb : Behind σ σ') (hinner : Fit opened σ₁ symbols₁)
    (hgrown : SymbolTable.Grown symbols₀.pushScope symbols₁)
    (hpop : symbols₁.popScope = .ok symbols₂) (e₁ : Extends σ₁ σ')
    (hneat : ∀ {ω}, Extends σ' ω → ω.Sound → Neat ω σ₁ → Neat ω σ')
    (htype : ∀ x, σ'.known.type? x = σ₁.known.type? x) : Fit opened σ' symbols₂ where
  ready := hready
  knows := h.knows.popScope hscopes hb hinner.knows hgrown hpop htype
  neat hω e := hneat e hω (hinner.neat hω (e₁.trans e))
  numbers hy := hinner.numbers ((htype _).symm.trans hy)

/-- The first body of a condition. -/
theorem Fit.thenBody (h : Fit opened σ symbols) {test : Value} (htest : σ.Has σ.current test)
    (hsplit : Split σ test σ') : FirstBody σ σ' ∧ Fit opened σ' symbols :=
  have hfirst := hsplit.firstBody h.ready htest
  ⟨hfirst, h.quiet hfirst.ready hfirst.behind hsplit.silent⟩

/-- The second body of a condition. -/
theorem Fit.elseBody (h : Fit opened σ symbols) (hfirst : FirstBody σ σ₁)
    (h₁ : Fit opened σ₁ symbols.pushScope) {ts : List Tree} {r : Option Value}
    (hthen : Statements config (.all ts) symbols.pushScope σ₁ b r symbols₁ σ₂)
    (h₂ : Fit opened σ₂ symbols₁) (hpop : symbols₁.popScope = .ok symbols₂) :
    SecondBody σ σ₂ (switch σ σ₂) ∧ Fit opened (switch σ σ₂) symbols₂ := by
  have hsecond := hfirst.secondBody h.ready h₂.ready (hthen.advance h₁.ready).2.1
  have hgrown := (hthen.kept h₁.ready h₁.knows).grown
  have hsilent := silent_switch σ σ₂
  exact ⟨hsecond, h.popScope rfl hsecond.ready hsecond.behind h₂ hgrown hpop
    hsecond.extends' (fun _ _ => hsilent.neat) hsilent.type⟩

/-- The body of a loop. -/
theorem Fit.loopBody (h : Fit opened σ symbols) {limit : Value} (hlimit : σ.Has σ.current limit)
    (hx : σ.Written x) (hhead : LoopHead σ x limit σ') :
    LoopBody σ σ' ∧ Fit opened σ' symbols := by
  have hloop := hhead.loopBody h.ready hlimit
  refine ⟨hloop, hloop.ready, h.knows.behind hloop.behind hhead.silentBut.type,
    fun {ω} hω e => ?_, fun hy => h.numbers ((hhead.silentBut.type _).symm.trans hy)⟩
  have htidy : Tidy FaultConfig.default opened ω σ σ' false := hhead.tidy h.ready hlimit hx e
  exact htidy.neat (h.neat hω (hloop.behind.extends'.trans e))

/-- Statements keep a plan fit. -/
theorem Statements.fit {part : StatementPart} {r : Option Value}
    (hstatements : Statements config part symbols σ b r symbols' σ') (h : Fit opened σ symbols) :
    Fit opened σ' symbols' := by
  induction hstatements with
  | letVar hvalue hdefine =>
    have hgives := hvalue.givesOne h.ready
    exact (hvalue.fit h).introduce hdefine hgives.has (hvalue.numbers h _ (by simp))
  | @setVar _ _ _ _ _ _ _ _ x _ v' σ₂ hvalue _ htype hcoerced =>
    have h₁ := hvalue.fit h
    have hgives := hvalue.givesOne h.ready
    have hgives' := hcoerced.gives hgives.ready hgives.has
    have hwrite := advance_write hgives'.ready x v'
    have h₂ := h₁.quiet hgives'.ready hgives'.advance.behind hcoerced.silent
    refine ⟨h₂.ready.write _ hgives'.has, h₂.knows.behind hwrite.behind fun _ => rfl,
      fun {ω} hω e => ?_, h₂.numbers⟩
    have e₂ := hwrite.since.extends'.trans e
    have htidy : Tidy FaultConfig.default opened ω σ₂ (σ₂.write x v') false := by
      refine tidy_write ?_
      rw [(hgives'.advance.since.extends'.trans e₂).type htype, hgives'.has.ty h₂.ready.sound e₂,
        hcoerced.ty]
    exact htidy.neat (h₂.neat hω e₂)
  | giveBack hvalue hcoerced hreturned =>
    have h₁ := hvalue.fit h
    have hgives := hvalue.givesOne h.ready
    have hgives' := hcoerced.gives hgives.ready hgives.has
    obtain ⟨hready, hadvance⟩ := hreturned.advance hgives'.ready hgives'.has
    exact (h₁.quiet hgives'.ready hgives'.advance.behind hcoerced.silent).quiet hready
      hadvance.behind hreturned.silent
  | ifElse hvalue htested hsplit hthen hpop₁ helse hpop₂ hjoined ih₁ ih₂ =>
    have hgives := hvalue.givesOne h.ready
    have htest := htested.gives hgives.ready hgives.has
    have h₂ := (hvalue.fit h).quiet htest.ready htest.advance.behind htested.silent
    obtain ⟨hfirst, h₃⟩ := h₂.thenBody htest.has hsplit
    have h₄ := ih₁ h₃.pushScope
    obtain ⟨hsecond, h₅⟩ := h₂.elseBody hfirst h₃.pushScope hthen h₄ hpop₁
    have h₆ := ih₂ h₅.pushScope
    have hadvance₁ := (hthen.advance h₃.ready).2.1
    have hspine : ∀ a ∈ _, a ∈ _ := fun a ha =>
      hadvance₁.spine a (hfirst.spine ▸ List.mem_cons_of_mem _ ha)
    obtain ⟨hready, hadvance, ejoined, -⟩ := hsecond.joined h₄.ready.sound hspine h₆.ready
      (helse.advance h₅.ready).2.1 hjoined
    have hgrown₁ := (hthen.kept h₃.ready h₃.knows.pushScope).grown
    have hgrown₂ := (helse.kept h₅.ready h₅.knows.pushScope).grown
    exact h₂.popScope (hgrown₁.popped hpop₁).1 hready hadvance.behind h₆ hgrown₂ hpop₂ ejoined
      (fun _ _ => hjoined.silent.neat) hjoined.silent.type
  | forLoop hvalue hcoerced hdefine hhead hbody hpop₁ htail hpop₂ ih =>
    have hgives := hvalue.givesOne h.ready
    have hlimit := hcoerced.gives hgives.ready hgives.has
    have h₂ := (hvalue.fit h).quiet hlimit.ready hlimit.advance.behind hcoerced.silent
    have h₃ := h₂.pushScope.countFrom hdefine
    obtain ⟨-, hadvance₃⟩ := advance_countFrom h₂.ready _
    have hx := h₃.knows.written _ (SymbolTable.entries_define hdefine ▸ List.mem_cons_self) rfl
    obtain ⟨hloop, h₄⟩ := h₃.loopBody (hadvance₃.has h₂.ready.sound hlimit.has) hx hhead
    have h₅ := ih h₄.pushScope
    have hadvance₅ := (hbody.advance h₄.ready).2.1
    obtain ⟨hready, hadvance, etail, -⟩ := htail.stages hloop h₃.ready h₅.ready hadvance₅
    have hgrown := (hbody.kept h₄.ready h₄.knows.pushScope).grown
    have hbehind := hloop.behind.trans hadvance₅.behind
    have htype := hbehind.extends'.type (h₂.pushScope.type_countFrom hdefine)
    have htidy : ∀ {ω : Plan}, ω.Sound → Extends _ ω → Tidy config opened ω _ _ false :=
      htail.tidy hloop h₃.ready h₅.ready hadvance₅ (hx.behind hbehind) htype
    have h₆ := h₃.popScope rfl hready hadvance.behind h₅ hgrown hpop₁ etail
      (fun e hω => (htidy hω e).neat) htail.silentBut.type
    exact h₂.popScope rfl hready (hadvance₃.behind.trans hadvance.behind) h₆
      ((SymbolTable.Grown.define hdefine).trans (hgrown.popScope hpop₁)) hpop₂ (.rfl' _)
      (fun _ _ => id) fun _ => rfl
  | expression hvalue => exact hvalue.fit h
  | nil => exact h
  | cons _ _ ih₁ ih₂ => exact ih₂ (ih₁ h)

/-- The value of statements is a number. -/
theorem Statements.number {part : StatementPart} {r : Option Value}
    (hstatements : Statements config part symbols σ b r symbols' σ') (h : Fit opened σ symbols) :
    ∀ v ∈ r, (σ'.builder.ty v).IsNumber := by
  induction hstatements with
  | expression hvalue =>
    rintro v ⟨⟩
    exact hvalue.numbers h _ (by simp)
  | cons hfirst hrest ih₁ ih₂ =>
    intro v hv
    have h₁ := hfirst.fit h
    rcases (Option.orElse_eq_some _ _ _).1 hv with hv | ⟨-, hv⟩
    · exact ih₂ h₁ v hv
    · have e := (hrest.advance h₁.ready).2.1.since.extends'
      rw [((hfirst.advance h.ready).2.2 v hv).ty h₁.ready.sound e]
      exact ih₁ h v hv
  | _ => simp

/-! ## Functions -/

theorem Opens.fit {name : String} {arity : Nat} (h : Opens name arity σ) (hglobal : opened.Global) :
    Fit opened σ opened where
  ready := h.begun.ready
  knows := h.fresh.knows hglobal
  neat _ _ := h.fresh.neat
  numbers {x ty} htype := by
    rw [h.fresh.type x] at htype
    cases htype

/-- The parameters are integers. -/
theorem Parameters.fit {names : List String} {i : Nat}
    (hparams : Parameters names i symbols σ symbols' σ') (h : Fit opened σ symbols)
    (hall : ∀ k < i + names.length, σ.Has σ.current ⟨k⟩ ∧ σ.builder.ty ⟨k⟩ = .int) :
    Fit opened σ' symbols' := by
  induction hparams with
  | nil => exact h
  | @cons name names i symbols σ x symbols₁ symbols' σ' hdefine _ ih =>
    obtain ⟨hhas, hty⟩ := hall i (by simp)
    have h₁ := h.introduce hdefine hhas (hty ▸ .inl rfl)
    rw [hty] at h₁
    refine ih h₁ fun k hk => ?_
    obtain ⟨hhas, hty⟩ := hall k (by simp only [List.length_cons]; omega)
    exact ⟨(advance_introduce h.ready x .int (hall i (by simp)).1).2.has h.ready.sound hhas, hty⟩

end Abacus.Lowering.Plan
