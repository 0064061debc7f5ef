import Abacus.Proofs.Lowering.Supplied
import Abacus.Proofs.Variables.Habits

/-!
# How lowering fails

The verifier is asked once only, when a function is finished. Everything before that fails for
other reasons. Work on a draft fails in searches only.

* `LoweringError.OfVerifier` — an error that the verifier gives;
* `Drafting.Clean` — work on a draft that fails in searches only;
* `Lower.Clean` — work that does not fail because of the verifier;
* `Lower.clean_items`, `Lower.clean_statementsValue` — the lowering of bodies is such work.
-/

namespace Abacus.Lowering

open Abacus.Flow (Value Block Ty Inst Terminator Builder)

/-- The verifier has found something wrong. -/
def LoweringError.OfVerifier (e : LoweringError) : Prop :=
  ∃ violation, e.cause = .internal (.invalid violation)

theorem LoweringError.ofVerifier_locate {e : LoweringError} {span : Span} :
    (e.locate span).OfVerifier ↔ e.OfVerifier := by
  unfold OfVerifier locate
  split <;> rfl

variable {α β : Type}

/-! ## Results -/

/-- If there is no result, it is not because of the verifier. -/
def CleanResult (x : Except LoweringError α) : Prop := ∀ e, x = .error e → ¬ e.OfVerifier

theorem clean_ok (a : α) : CleanResult (.ok a) := nofun

theorem clean_error {e : LoweringError} (h : ∀ violation, e.cause ≠ .internal (.invalid violation)) :
    CleanResult (.error e : Except LoweringError α) := by
  rintro _ ⟨⟩ ⟨violation, hcause⟩
  exact h violation hcause

theorem CleanResult.bind {x : Except LoweringError α} {f : α → Except LoweringError β}
    (h : CleanResult x) (hf : ∀ a, CleanResult (f a)) : CleanResult (x >>= f) := by
  cases x with
  | error e =>
    rintro _ ⟨⟩
    exact h e rfl
  | ok a => exact hf a

namespace SymbolTable

theorem clean_define (t : SymbolTable) (name : String) (binding : Binding) :
    CleanResult (t.define name binding) := by
  unfold define
  split
  · exact clean_error nofun
  · exact clean_ok _

theorem clean_redefine (t : SymbolTable) (name : String) (binding : Binding) :
    CleanResult (t.redefine name binding) := by
  unfold redefine
  split
  · exact clean_error nofun
  · split <;> exact clean_ok _

theorem clean_popScope (t : SymbolTable) : CleanResult t.popScope := by
  unfold popScope
  split
  · exact clean_error nofun
  · exact clean_ok _

theorem clean_findVariable (t : SymbolTable) (name : String) :
    CleanResult (t.findVariable name) := by
  unfold findVariable
  split
  · exact clean_ok _
  · exact clean_error nofun

theorem clean_findFunction (t : SymbolTable) (name : String) :
    CleanResult (t.findFunction name) := by
  unfold findFunction
  split
  · exact clean_ok _
  · exact clean_error nofun

end SymbolTable

/-! ## Work on a draft -/

namespace Drafting

/-- If the work fails, it is in a search. -/
def Clean (work : Drafting α) : Prop :=
  ∀ d e d', work.on d = (.error e, d') → ∃ defect : Defect, defect.OfSearch ∧ e = .ofDefect defect

theorem clean_pure (a : α) : Clean (pure a) := by
  intro d e d' h
  cases h

theorem Clean.bind {work : Drafting α} {next : α → Drafting β} (h : Clean work)
    (hnext : ∀ a, Clean (next a)) : Clean (work >>= next) := by
  intro d e d' hrun
  rw [on_bind] at hrun
  rcases hwork : work.on d with ⟨e' | a, d₁⟩ <;> rw [hwork] at hrun
  · cases hrun
    exact h d _ _ hwork
  · exact hnext a d₁ e d' hrun

theorem clean_build (change : Builder → α × Builder) : Clean (build change) := by
  intro d e d' h
  cases h

theorem clean_rebuild (change : Builder → Builder) : Clean (rebuild change) := clean_build _

theorem clean_note (change : Variables → Variables) : Clean (note change) := by
  intro d e d' h
  cases h

theorem clean_get : Clean get := by
  intro d e d' h
  cases h

theorem clean_throw {defect : Defect} (h : defect.OfSearch) :
    Clean (throw (.ofDefect defect) : Drafting α) := by
  intro d e d' hrun
  cases hrun
  exact ⟨defect, h, rfl⟩

theorem clean_newPhi (x : SymbolId) (b : Block) : Clean (newPhi x b) := by
  refine clean_get.bind fun d => ?_
  split
  · exact clean_throw (.undeclared x b)
  · exact (clean_build _).bind fun _ => (clean_note _).bind fun _ => clean_pure _

theorem clean_habit : Habit @Clean where
  done := clean_pure
  bind := Clean.bind
  look := clean_get
  fail _ h := clean_throw h
  make := clean_newPhi
  wait _ := clean_note _
  keep _ _ _ := clean_note _
  give _ _ _ := clean_rebuild _

theorem clean_read (x : SymbolId) (b : Block) : Clean (read x b) := clean_habit.read x b

theorem clean_sealBlock (b : Block) : Clean (sealBlock b) :=
  clean_habit.sealBlock (clean_note _) (clean_note _)

theorem clean_emit (inst : Inst) (ty : Ty) : Clean (emit inst ty) := clean_build _

theorem clean_newBlock (label : String) : Clean (newBlock label) := clean_build _

theorem clean_terminate (t : Terminator) : Clean (terminate t) := clean_rebuild _

theorem clean_setCurrent (b : Block) : Clean (setCurrent b) := clean_rebuild _

theorem clean_currentBlock : Clean currentBlock := clean_get.bind fun _ => clean_pure _

theorem clean_typeOf (v : Value) : Clean (typeOf v) := clean_get.bind fun _ => clean_pure _

theorem clean_checkedDiv (config : FaultConfig) (lhs rhs : Value) :
    Clean (checkedDiv config lhs rhs) :=
  clean_currentBlock.bind fun _ => (clean_newBlock _).bind fun _ => (clean_newBlock _).bind fun _ =>
  (clean_emit _ _).bind fun _ => (clean_emit _ _).bind fun _ => (clean_terminate _).bind fun _ =>
  (clean_sealBlock _).bind fun _ => (clean_sealBlock _).bind fun _ =>
  (clean_setCurrent _).bind fun _ => (clean_emit _ _).bind fun _ => (clean_terminate _).bind fun _ =>
  (clean_setCurrent _).bind fun _ => (clean_emit _ _).bind fun _ => clean_pure _

theorem clean_fillLanding (config : FaultConfig) (sites : InvokeSites) :
    Clean (fillLanding config sites) :=
  (clean_setCurrent _).bind fun _ => (clean_emit _ _).bind fun _ => (clean_emit _ _).bind fun _ =>
  (clean_emit _ _).bind fun _ => (clean_emit _ _).bind fun _ => (clean_terminate _).bind fun _ =>
  (clean_sealBlock _).bind fun _ => (clean_sealBlock _).bind fun _ => clean_pure _

theorem clean_fillCaught (sites : InvokeSites) (pad : Value) : Clean (fillCaught sites pad) :=
  (clean_setCurrent _).bind fun _ => (clean_emit _ _).bind fun _ => (clean_emit _ _).bind fun _ =>
  (clean_emit _ _).bind fun _ => (clean_emit _ _).bind fun _ => clean_terminate _

theorem clean_fillFaulted (sites : InvokeSites) (pad selector : Value) :
    Clean (fillFaulted sites pad selector) :=
  (clean_setCurrent _).bind fun _ => (clean_emit _ _).bind fun _ => (clean_emit _ _).bind fun _ =>
  (clean_terminate _).bind fun _ => (clean_sealBlock _).bind fun _ =>
  (clean_sealBlock _).bind fun _ => (clean_setCurrent _).bind fun _ =>
  (clean_emit _ _).bind fun _ => (clean_terminate _).bind fun _ => (clean_setCurrent _).bind fun _ =>
  clean_terminate _

theorem clean_newInvokeSites : Clean newInvokeSites :=
  (clean_newBlock _).bind fun _ => (clean_newBlock _).bind fun _ => (clean_newBlock _).bind fun _ =>
  (clean_newBlock _).bind fun _ => (clean_newBlock _).bind fun _ => (clean_newBlock _).bind fun _ =>
  clean_pure _

theorem clean_invoke (config : FaultConfig) (callee : String) (arguments : List Value) :
    Clean (invoke config callee arguments) :=
  clean_newInvokeSites.bind fun _ => (clean_build _).bind fun _ => (clean_sealBlock _).bind fun _ =>
  (clean_sealBlock _).bind fun _ => (clean_fillLanding _ _).bind fun _ =>
  (clean_fillCaught _ _).bind fun _ => (clean_fillFaulted _ _ _).bind fun _ =>
  (clean_setCurrent _).bind fun _ => clean_pure _

/-! ### Parts of statements -/

theorem clean_giveBack (v : Value) : Clean (Supplied.giveBack .own v) :=
  (clean_terminate _).bind fun _ => (clean_newBlock _).bind fun _ => (clean_setCurrent _).bind fun _ =>
  clean_sealBlock _

theorem clean_split (test : Value) : Clean (Supplied.split .own test) :=
  (clean_newBlock _).bind fun _ => (clean_newBlock _).bind fun _ => (clean_newBlock _).bind fun _ =>
  (clean_terminate _).bind fun _ => (clean_sealBlock _).bind fun _ =>
  (clean_sealBlock _).bind fun _ => (clean_setCurrent _).bind fun _ => clean_pure _

theorem clean_joinWays (join : Block) : Clean (Supplied.joinWays .own join) :=
  (clean_sealBlock _).bind fun _ => clean_setCurrent _

theorem clean_loopHead (var : SymbolId) (bound : Value) :
    Clean (Supplied.loopHead .own var bound) :=
  (clean_newBlock _).bind fun _ => (clean_newBlock _).bind fun _ => (clean_newBlock _).bind fun _ =>
  (clean_newBlock _).bind fun _ => (clean_terminate _).bind fun _ =>
  (clean_setCurrent _).bind fun _ => (clean_read _ _).bind fun _ => (clean_emit _ _).bind fun _ =>
  (clean_terminate _).bind fun _ => (clean_sealBlock _).bind fun _ =>
  (clean_setCurrent _).bind fun _ => clean_pure _

theorem clean_loopTail (var : SymbolId) (header bodyEnd exit : Block) :
    Clean (Supplied.loopTail .own var header bodyEnd exit) :=
  (clean_sealBlock _).bind fun _ => (clean_setCurrent _).bind fun _ => (clean_read _ _).bind fun _ =>
  (clean_emit _ _).bind fun _ => (clean_emit _ _).bind fun _ => (clean_terminate _).bind fun _ =>
  (clean_note _).bind fun _ => (clean_sealBlock _).bind fun _ => (clean_sealBlock _).bind fun _ =>
  clean_setCurrent _

end Drafting

/-! ## Parts of bodies -/

namespace Lower

/-- If the work fails, it is not because of the verifier. -/
def Clean (work : Lower α) : Prop := ∀ s, CleanResult (work s)

theorem clean_pure (a : α) : Clean (pure a) := fun s => clean_ok (a, s)

theorem Clean.bind {work : Lower α} {next : α → Lower β} (h : Clean work)
    (hnext : ∀ a, Clean (next a)) : Clean (work >>= next) := fun s =>
  CleanResult.bind (f := fun p : α × State => next p.1 p.2) (h s) fun p => hnext p.1 p.2

theorem clean_throw {e : LoweringError} (h : ∀ violation, e.cause ≠ .internal (.invalid violation)) :
    Clean (throw e : Lower α) := fun _ => clean_error h

theorem clean_defect {d : Defect} (h : ∀ violation, d ≠ .invalid violation) :
    Clean (defect d : Lower α) :=
  clean_throw fun violation hcause => h violation (by cases hcause; rfl)

theorem clean_modify (change : State → State) : Clean (modify change : Lower PUnit) :=
  fun _ => clean_ok _

theorem clean_get : Clean (get : Lower State) := fun _ => clean_ok _

theorem clean_onDraft {work : Drafting α} (h : Drafting.Clean work) : Clean (onDraft work) := by
  intro s
  unfold onDraft
  split
  · exact clean_ok _
  · next e d hwork =>
    obtain ⟨defect, hdefect, rfl⟩ := h _ _ _ hwork
    refine clean_error fun violation hcause => ?_
    cases hcause
    cases hdefect

theorem clean_onSymbols {work : SymbolTable → Except LoweringError (α × SymbolTable)}
    (h : ∀ t, CleanResult (work t)) : Clean (onSymbols work) := by
  intro s
  unfold onSymbols
  split
  · exact clean_ok _
  · next e hwork =>
    rintro _ ⟨⟩
    exact h _ _ hwork

theorem Clean.located {work : Lower α} (h : Clean work) (span : Span) :
    Clean (located span work) := by
  intro s
  unfold Lower.located
  split
  · exact clean_ok _
  · next e hwork =>
    rintro _ ⟨⟩
    rw [LoweringError.ofVerifier_locate]
    exact h s e hwork

theorem clean_define (name : String) (binding : Binding) : Clean (define name binding) :=
  clean_onSymbols fun t => t.clean_define name binding

theorem clean_variableOf (name : String) : Clean (variableOf name) := by
  intro s
  unfold variableOf
  split
  · exact clean_ok _
  · next e hfind =>
    rintro _ ⟨⟩
    exact s.symbols.clean_findVariable name e hfind

theorem Clean.inScope {work : Lower α} (h : Clean work) : Clean (inScope work) :=
  (clean_modify _).bind fun _ => h.bind fun a =>
    (clean_onSymbols fun t => t.clean_popScope.bind fun _ => clean_ok _).bind fun _ => clean_pure a

/-! ### Expressions -/

theorem clean_emit (inst : Inst) (ty : Ty) : Clean (emit inst ty) :=
  clean_onDraft (Drafting.clean_emit inst ty)

theorem clean_typeOf (v : Value) : Clean (typeOf v) := clean_onDraft (Drafting.clean_typeOf v)

theorem clean_readHere (x : SymbolId) : Clean (readHere x) :=
  clean_onDraft (Drafting.clean_currentBlock.bind fun _ => Drafting.clean_read _ _)

theorem clean_writeHere (x : SymbolId) (v : Value) : Clean (writeHere x v) :=
  clean_onDraft (Drafting.clean_currentBlock.bind fun _ => Drafting.clean_note _)

theorem clean_coerce (v : Value) (target : Ty) : Clean (coerce v target) := by
  refine (clean_typeOf v).bind fun source => ?_
  split
  · exact clean_pure v
  · split
    · exact clean_emit _ _
    · exact clean_emit _ _
    · exact clean_defect (by simp)

theorem clean_truthy (v : Value) : Clean (truthy v) := by
  refine (clean_typeOf v).bind fun ty => ?_
  split
  · exact (clean_emit _ _).bind fun _ => clean_emit _ _
  · exact (clean_emit _ _).bind fun _ => clean_emit _ _
  · exact clean_defect (by simp)

theorem clean_infixOp (fault : FaultConfig) (op : InfixOp) (lhs rhs : Value) :
    Clean (infixOp fault op lhs rhs) := by
  refine (clean_typeOf lhs).bind fun _ => (clean_typeOf rhs).bind fun _ =>
    (clean_coerce _ _).bind fun _ => (clean_coerce _ _).bind fun _ => ?_
  split
  · exact (clean_emit _ _).bind fun _ => clean_emit _ _
  · exact (clean_emit _ _).bind fun _ => clean_emit _ _
  · exact clean_emit _ _
  · exact (clean_onDraft (Drafting.clean_checkedDiv _ _ _)).bind fun _ =>
      (clean_modify _).bind fun _ => clean_pure _
  · exact clean_emit _ _

theorem clean_negate (v : Value) : Clean (negate v) := by
  refine (clean_typeOf v).bind fun ty => ?_
  split <;> exact (clean_emit _ _).bind fun _ => clean_emit _ _

theorem clean_checkArity (name : String) (expected found : Nat) :
    Clean (checkArity name expected found) := by
  unfold checkArity
  split
  · exact clean_pure _
  · exact clean_throw (by simp [LoweringError.ofCause])

theorem clean_isPi (name : String) : Clean (isPi name) := clean_get.bind fun _ => clean_pure _

theorem clean_findFunction (name : String) :
    Clean (fun s => match s.symbols.findFunction name with
      | .ok found => .ok (found, s)
      | .error e => .error e : Lower (SymbolId × Nat × Bool)) := by
  intro s
  dsimp only
  split
  · exact clean_ok _
  · next e hfind =>
    rintro _ ⟨⟩
    exact s.symbols.clean_findFunction name e hfind

theorem clean_callWith (fault : FaultConfig) (name : String) (count : Nat)
    {values : Lower (List Value)} (h : Clean values) : Clean (callWith fault name count values) := by
  refine (clean_isPi name).bind fun pi => ?_
  split
  · exact (clean_checkArity _ _ _).bind fun _ => clean_emit _ _
  · refine (clean_findFunction name).bind fun found => (clean_checkArity _ _ _).bind fun _ =>
      h.bind fun arguments => ?_
    dsimp only
    split
    · exact (clean_onDraft (Drafting.clean_invoke _ _ _)).bind fun _ => clean_pure _
    · exact clean_emit _ _

mutual

theorem clean_expression (fault : FaultConfig) : ∀ t : Tree, Clean (expression fault t)
  | .node span (.integer n) => (clean_emit _ _).located span
  | .node span (.floating x) => (clean_emit _ _).located span
  | .node span (.ident name) =>
    ((clean_variableOf name).bind fun _ => clean_readHere _).located span
  | .node span (.infixOp op left right) =>
    ((clean_expression fault left).bind fun _ => (clean_expression fault right).bind fun _ =>
      clean_infixOp _ _ _ _).located span
  | .node span (.negate operand) =>
    ((clean_expression fault operand).bind fun _ => clean_negate _).located span
  | .node span (.call name arguments) =>
    (clean_callWith _ _ _ (clean_argumentItems fault arguments)).located span
  | .node span (.program _) | .node span (.list _) | .node span (.letVar ..)
  | .node span (.setVar ..) | .node span (.ifElse ..) | .node span (.forLoop ..)
  | .node span (.giveBack _) | .node span (.fnDef ..) => (clean_defect (by simp)).located span
termination_by structural t => t

theorem clean_argumentItems (fault : FaultConfig) : ∀ t : Tree, Clean (argumentItems fault t)
  | .node _ (.program items) | .node _ (.list items) => clean_arguments fault items
  | .node _ (.integer _) | .node _ (.floating _) | .node _ (.ident _) | .node _ (.infixOp ..)
  | .node _ (.negate _) | .node _ (.call ..) | .node _ (.letVar ..) | .node _ (.setVar ..)
  | .node _ (.ifElse ..) | .node _ (.forLoop ..) | .node _ (.giveBack _) | .node _ (.fnDef ..) =>
    clean_pure _
termination_by structural t => t

theorem clean_arguments (fault : FaultConfig) : ∀ ts : List Tree, Clean (arguments fault ts)
  | [] => clean_pure _
  | first :: rest =>
    (clean_expression fault first).bind fun _ => (clean_coerce _ _).bind fun _ =>
      (clean_arguments fault rest).bind fun _ => clean_pure _
termination_by structural ts => ts

end

/-! ### Statements -/

theorem clean_introduce (name : String) (ty : Ty) (v : Value) : Clean (introduce name ty v) :=
  (clean_define _ _).bind fun _ => (clean_onDraft (Drafting.clean_note _)).bind fun _ =>
    (clean_writeHere _ _).bind fun _ => clean_pure _

theorem clean_assign (name : String) (v : Value) : Clean (assign name v) := by
  refine (clean_variableOf name).bind fun x => clean_get.bind fun s => ?_
  split
  · exact clean_defect (by simp)
  · exact (clean_coerce _ _).bind fun _ => clean_writeHere _ _

theorem clean_jumpTo (b : Block) : Clean (jumpTo b) := clean_onDraft (Drafting.clean_terminate _)

theorem clean_giveBack (v : Value) : Clean (giveBack v) := clean_onDraft (Drafting.clean_giveBack v)

theorem clean_ifElse (condition : Value) {thenBody elseBody : Lower Unit} (hthen : Clean thenBody)
    (helse : Clean elseBody) : Clean (ifElse condition thenBody elseBody) := by
  exact (clean_truthy _).bind fun test =>
    (clean_onDraft (Drafting.clean_split test)).bind fun blocks => hthen.bind fun _ =>
    (clean_jumpTo _).bind fun _ => (clean_onDraft (Drafting.clean_setCurrent _)).bind fun _ =>
    helse.bind fun _ => (clean_jumpTo _).bind fun _ => clean_onDraft (Drafting.clean_joinWays _)

theorem clean_forLoop (index : String) (bound : Value) {body : Lower Unit} (hbody : Clean body) :
    Clean (forLoop index bound body) :=
  Clean.inScope ((clean_define _ _).bind fun x =>
    (clean_onDraft (Drafting.clean_note _)).bind fun _ => (clean_emit _ _).bind fun _ =>
    (clean_writeHere _ _).bind fun _ => (clean_onDraft (Drafting.clean_loopHead x bound)).bind fun _ =>
    hbody.bind fun _ => (clean_jumpTo _).bind fun _ => clean_onDraft (Drafting.clean_loopTail _ _ _ _))

mutual

theorem clean_statement (fault : FaultConfig) : ∀ t : Tree, Clean (statement fault t)
  | .node span (.letVar name value) =>
    ((clean_expression fault value).bind fun _ => (clean_typeOf _).bind fun _ =>
      (clean_introduce _ _ _).bind fun _ => clean_pure _).located span
  | .node span (.setVar name value) =>
    ((clean_expression fault value).bind fun _ => (clean_assign _ _).bind fun _ =>
      clean_pure _).located span
  | .node span (.giveBack value) =>
    ((clean_expression fault value).bind fun _ => (clean_coerce _ _).bind fun _ =>
      (clean_giveBack _).bind fun _ => clean_pure _).located span
  | .node span (.ifElse condition thenBody none) =>
    ((clean_expression fault condition).bind fun _ =>
      (clean_ifElse _ (clean_items fault thenBody).inScope (clean_pure _)).bind fun _ =>
      clean_pure _).located span
  | .node span (.ifElse condition thenBody (some elseBody)) =>
    ((clean_expression fault condition).bind fun _ =>
      (clean_ifElse _ (clean_items fault thenBody).inScope
        (clean_items fault elseBody).inScope).bind fun _ => clean_pure _).located span
  | .node span (.forLoop index bound body) =>
    ((clean_expression fault bound).bind fun _ => (clean_coerce _ _).bind fun _ =>
      (clean_forLoop _ _ (clean_items fault body).inScope).bind fun _ =>
      clean_pure _).located span
  | .node span (.fnDef ..) | .node span (.program _) | .node span (.list _) =>
    (clean_defect (by simp)).located span
  | .node span (.integer n) =>
    ((clean_expression fault (.node span (.integer n))).bind fun _ => clean_pure _).located span
  | .node span (.floating x) =>
    ((clean_expression fault (.node span (.floating x))).bind fun _ => clean_pure _).located span
  | .node span (.ident name) =>
    ((clean_expression fault (.node span (.ident name))).bind fun _ => clean_pure _).located span
  | .node span (.infixOp op left right) =>
    ((clean_expression fault (.node span (.infixOp op left right))).bind fun _ =>
      clean_pure _).located span
  | .node span (.negate operand) =>
    ((clean_expression fault (.node span (.negate operand))).bind fun _ => clean_pure _).located span
  | .node span (.call name arguments) =>
    ((clean_expression fault (.node span (.call name arguments))).bind fun _ =>
      clean_pure _).located span
termination_by structural t => t

theorem clean_items (fault : FaultConfig) : ∀ t : Tree, Clean (items fault t)
  | .node _ (.program items) | .node _ (.list items) => clean_statements fault items
  | .node _ (.integer _) | .node _ (.floating _) | .node _ (.ident _) | .node _ (.infixOp ..)
  | .node _ (.negate _) | .node _ (.call ..) | .node _ (.letVar ..) | .node _ (.setVar ..)
  | .node _ (.ifElse ..) | .node _ (.forLoop ..) | .node _ (.giveBack _) | .node _ (.fnDef ..) =>
    clean_pure _
termination_by structural t => t

theorem clean_statements (fault : FaultConfig) : ∀ ts : List Tree, Clean (statements fault ts)
  | [] => clean_pure _
  | first :: rest =>
    (clean_statement fault first).bind fun _ => clean_statements fault rest
termination_by structural ts => ts

end

theorem clean_statementsValue (fault : FaultConfig) (ts : List Tree) :
    Clean (statementsValue fault ts) := by
  induction ts with
  | nil => exact clean_pure _
  | cons first rest ih =>
    exact (clean_statement fault first).bind fun _ => ih.bind fun _ => clean_pure _

theorem clean_parameters (span : Span) (names : List String) (i : Nat) :
    Clean (parameters span names i) := by
  induction names generalizing i with
  | nil => exact clean_pure _
  | cons name names ih =>
    exact ((clean_define _ _).located span).bind fun _ =>
      (clean_onDraft (Drafting.clean_note _)).bind fun _ =>
      (clean_onDraft (Drafting.clean_note _)).bind fun _ => ih _

end Lower

/-! ## Units -/

theorem CleanResult.locate {x : Except LoweringError α} (h : CleanResult x) (span : Span) :
    CleanResult (locateError span x) := by
  cases x with
  | ok a => exact clean_ok a
  | error e =>
    rintro _ ⟨⟩
    rw [LoweringError.ofVerifier_locate]
    exact h e rfl

theorem clean_openFunction (symbols : SymbolTable) (name : String) (arity : Nat) :
    CleanResult (openFunction symbols name arity) :=
  (symbols.clean_define _ _).bind fun _ =>
    (Lower.clean_onDraft (Drafting.clean_sealBlock _) _).bind fun _ => clean_ok _

theorem clean_endBody (r : Option Value) : Drafting.Clean (endBody r) := by
  refine Drafting.clean_get.bind fun draft => ?_
  split
  · exact Drafting.clean_pure _
  · cases r with
    | some v => exact (Drafting.clean_pure _).bind fun _ => Drafting.clean_terminate _
    | none => exact (Drafting.clean_emit _ _).bind fun _ => Drafting.clean_terminate _

/-- Without verification the verifier is not asked. -/
theorem clean_finishDraft (draft : Draft) : CleanResult (finishDraft false draft) := by
  refine CleanResult.bind ?_ fun _ => clean_ok _
  unfold Variables.finish
  split
  · exact clean_ok _
  · exact clean_error (by simp [LoweringError.ofDefect, LoweringError.ofCause])

theorem clean_closeFunction (fault : FaultConfig) (name : String) (arity : Nat)
    (r : Option Value) (s : State) : CleanResult (closeFunction ⟨fault, false⟩ name arity r s) := by
  refine (Lower.clean_onDraft (clean_endBody r) s).bind fun result =>
    (clean_finishDraft _).bind fun f => ?_
  dsimp only
  split
  · exact (SymbolTable.clean_redefine _ _ _).bind fun _ => clean_ok _
  · exact clean_ok _

theorem clean_lowerFunction (fault : FaultConfig) (symbols : SymbolTable) (span : Span)
    (name : String) (names : List String) (body : Tree) :
    CleanResult (lowerFunction ⟨fault, false⟩ symbols span name names body) :=
  ((clean_openFunction _ _ _).locate span).bind fun start =>
    ((Lower.clean_parameters span names 0).bind fun _ => Lower.clean_items fault body).inScope
      start |>.bind fun _ => ((clean_closeFunction _ _ _ _ _).locate span).bind fun _ => clean_ok _

theorem clean_lowerStatements (fault : FaultConfig) (symbols : SymbolTable) (name : String)
    (items : List Tree) : CleanResult (lowerStatements ⟨fault, false⟩ symbols name items) := by
  refine ((clean_openFunction _ _ _).locate _).bind fun start =>
    ((Lower.clean_statementsValue fault items).inScope start).bind fun result => ?_
  dsimp only
  split
  · refine (Lower.clean_coerce _ _ _).bind fun converted => ?_
    exact (clean_closeFunction _ _ _ _ _).bind fun _ => clean_ok _
  · exact (clean_closeFunction _ _ _ _ _).bind fun _ => clean_ok _

theorem clean_foldlM {γ : Type} {step : β → γ → Except LoweringError β}
    (h : ∀ b c, CleanResult (step b c)) (l : List γ) (b : β) : CleanResult (l.foldlM step b) := by
  induction l generalizing b with
  | nil => exact clean_ok b
  | cons c l ih =>
    rw [List.foldlM_cons]
    exact (h b c).bind ih

/-- Without verification no unit is rejected by the verifier. -/
theorem clean_lowerUnit (fault : FaultConfig) (exports : List Export) (unitName : String)
    (tree? : Option Tree) : CleanResult (lowerUnit ⟨fault, false⟩ exports unitName tree?) := by
  have hitem : ∀ progress item, CleanResult (lowerItem ⟨fault, false⟩ progress item) := by
    intro progress item
    unfold lowerItem
    split
    · exact (clean_lowerFunction _ _ _ _ _ _).bind fun _ => clean_ok _
    · exact clean_ok _
  refine (clean_foldlM (fun symbols e => (symbols.clean_define _ _).bind fun _ => clean_ok _)
    exports _).bind fun symbols => ?_
  cases tree? with
  | none => exact clean_error (by simp [LoweringError.ofDefect, LoweringError.ofCause])
  | some tree =>
    refine (clean_foldlM hitem tree.items _).bind fun progress => ?_
    split
    · exact clean_ok _
    · exact (clean_lowerStatements _ _ _ _).bind fun _ => clean_ok _

end Abacus.Lowering
