import Abacus.Proofs.Checked.Parts
import Abacus.Proofs.Lowering.Scopes

/-!
# Expressions and statements keep the rules

A name in scope that stands for a variable stands for one that has been declared (`Known`), so every
variable that is read has been. With that each part of a body does with its demands what it does without
them (`Conforms`): the parts of expressions and statements one by one, and expressions and statements by
induction on their trees.

* `Lower.Meets`, `Lower.Conforms` — lowering whose demands are met;
* `Conforms.infixOp`, `Conforms.ifElse`, `Conforms.forLoop` and others — the constructs;
* `conforms_expression`, `conforms_statement`, `conforms_items` — expressions and statements.
-/

namespace Abacus.Lowering

open Abacus.Flow (Value Block Ty Inst Terminator Builder Function)

/-! ## Variables in scope -/

/-- The variables in scope have been declared. -/
def SymbolTable.Known (t : SymbolTable) (declared : SymbolId → Bool) : Prop :=
  ∀ e ∈ t.entries, e.2.binding = .var → declared e.2.id = true

namespace SymbolTable

variable {t t' : SymbolTable} {declared declared' : SymbolId → Bool} {name : String} {x : SymbolId}

theorem Known.mono (h : t.Known declared) (himp : ∀ y, declared y = true → declared' y = true) :
    t.Known declared' := fun e he hvar => himp _ (h e he hvar)

theorem Known.findVariable (h : t.Known declared) (hfind : t.findVariable name = .ok x) :
    declared x = true :=
  h _ (mem_entries_of_lookup? (findVariable_ok hfind)) rfl

theorem Known.congr (h : t.Known declared) (hscopes : t'.scopes = t.scopes) : t'.Known declared := by
  unfold Known entries
  rw [hscopes]
  exact h

/-- A new name for a variable that has been declared. -/
theorem Known.define (h : t.Known declared) (hdefine : t.define name .var = .ok (x, t'))
    (hx : declared x = true) : t'.Known declared := by
  intro e he hvar
  rw [entries_define hdefine] at he
  rcases List.mem_cons.1 he with rfl | he
  · exact hx
  · exact h e he hvar

end SymbolTable

namespace Lower

variable {α β : Type} {checked plain : Lower α} {checkedNext plainNext : α → Lower β}
  {checks : Checked.Checks} {v w : View} {t t' : SymbolTable} {mid : α → View → SymbolTable → Prop}
  {post : β → View → SymbolTable → Prop}

/-! ## Parts of bodies -/

/-- From a draft with this view and with these names in scope the demands of the work are met, and
when it succeeds something holds of its result, of the view and of the names. -/
def Meets (checked plain : Lower α) (v : View) (t : SymbolTable)
    (mid : α → View → SymbolTable → Prop) : Prop :=
  ∀ s : State, s.draft.Shows v [] → s.symbols = t → checked s = plain s ∧
    ∀ a s', plain s = .ok (a, s') → ∃ v', s'.draft.Shows v' [] ∧ mid a v' s'.symbols

theorem Meets.bind (h : Meets checked plain v t mid)
    (hnext : ∀ a v' t', mid a v' t' → Meets (checkedNext a) (plainNext a) v' t' post) :
    Meets (checked >>= checkedNext) (plain >>= plainNext) v t post := by
  intro s hs ht
  obtain ⟨heq, hmid⟩ := h s hs ht
  constructor
  · show (checked s >>= fun p => checkedNext p.1 p.2) = (plain s >>= fun p => plainNext p.1 p.2)
    rw [heq]
    cases hrun : plain s with
    | error e => rfl
    | ok p =>
      obtain ⟨v', hs', hp⟩ := hmid p.1 p.2 hrun
      exact (hnext p.1 v' _ hp p.2 hs' rfl).1
  · intro b s₂ hrun
    obtain ⟨a, s₁, hfirst, hrest⟩ := bind_ok hrun
    obtain ⟨v', hs', hp⟩ := hmid a s₁ hfirst
    exact (hnext a v' _ hp s₁ hs' rfl).2 b s₂ hrest

theorem Meets.mono {post : α → View → SymbolTable → Prop} (h : Meets checked plain v t mid)
    (himp : ∀ a v' t', mid a v' t' → post a v' t') : Meets checked plain v t post := by
  intro s hs ht
  obtain ⟨heq, hmid⟩ := h s hs ht
  refine ⟨heq, fun a s' hrun => ?_⟩
  obtain ⟨v', hs', hp⟩ := hmid a s' hrun
  exact ⟨v', hs', himp a v' _ hp⟩

theorem meets_pure {a : α} (h : mid a v t) : Meets (pure a) (pure a) v t mid := by
  rintro s hs rfl
  refine ⟨rfl, fun a' s' hrun => ?_⟩
  cases hrun
  exact ⟨v, hs, h⟩

theorem meets_throw (e : LoweringError) : Meets (throw e) (throw e) v t mid :=
  fun _ _ _ => ⟨rfl, fun _ _ hrun => by cases hrun⟩

/-- Work on the draft leaves the names. -/
theorem meets_onDraft {checked plain : Drafting α} {mid : α → View → Prop}
    (h : View.Meets checked plain v mid) :
    Meets (onDraft checked) (onDraft plain) v t fun a v' t' => mid a v' ∧ t' = t := by
  rintro s hs rfl
  obtain ⟨heq, hmid⟩ := h s.draft hs
  unfold onDraft
  rw [heq]
  refine ⟨rfl, fun a s' hrun => ?_⟩
  rcases hwork : plain.on s.draft with ⟨e | b, d⟩
  · simp only [hwork] at hrun
    cases hrun
  · simp only [hwork] at hrun
    cases hrun
    obtain ⟨v', hd, hb⟩ := hmid a d hwork
    exact ⟨v', hd, hb, rfl⟩

theorem Meets.located (h : Meets checked plain v t mid) (span : Span) :
    Meets (located span checked) (located span plain) v t mid := by
  intro s hs ht
  obtain ⟨heq, hmid⟩ := h s hs ht
  unfold Lower.located
  rw [heq]
  refine ⟨rfl, fun a s' hrun => ?_⟩
  cases hrun' : plain s with
  | error e =>
    rw [hrun'] at hrun
    cases hrun
  | ok p =>
    rw [hrun'] at hrun
    cases hrun
    exact hmid a s' hrun'

theorem meets_onSymbols {work : SymbolTable → Except LoweringError (α × SymbolTable)} :
    Meets (onSymbols work) (onSymbols work) v t fun a v' t' => v' = v ∧ work t = .ok (a, t') := by
  rintro s hs rfl
  refine ⟨rfl, fun a s' hrun => ?_⟩
  unfold onSymbols at hrun
  split at hrun
  · next hwork =>
    cases hrun
    exact ⟨v, hs, rfl, hwork⟩
  · cases hrun

/-! ## Going on -/

/-- With its demands the work does what it does without them, wherever it starts, and goes on in the
same scope. -/
def Conforms (checked plain : Lower α) : Prop :=
  ∀ v t, v.Ready → t.Known v.declared → Meets checked plain v t fun _ v' t' =>
    v.Advances v' ∧ t'.Known v'.declared ∧ t'.enclosing = t.enclosing

theorem Conforms.bind (h : Conforms checked plain)
    (hnext : ∀ a, Conforms (checkedNext a) (plainNext a)) :
    Conforms (checked >>= checkedNext) (plain >>= plainNext) := by
  intro v t hv ht
  apply (h v t hv ht).bind
  rintro a v₁ t₁ ⟨hadvances, ht₁, henclosing⟩
  apply (hnext a v₁ t₁ hadvances.ready ht₁).mono
  rintro b v₂ t₂ ⟨hadvances', ht₂, henclosing'⟩
  exact ⟨hadvances.trans hadvances', ht₂, henclosing'.trans henclosing⟩

theorem Conforms.pure (a : α) : Conforms (Pure.pure a) (Pure.pure a) :=
  fun _ _ hv ht => meets_pure ⟨.rfl' hv, ht, rfl⟩

theorem Conforms.throw (e : LoweringError) : Conforms (throw e : Lower α) (throw e) :=
  fun _ _ _ _ => meets_throw e

theorem Conforms.located (h : Conforms checked plain) (span : Span) :
    Conforms (located span checked) (located span plain) :=
  fun v t hv ht => (h v t hv ht).located span

/-- A part of a draft that goes on. -/
theorem Conforms.onDraft {checked plain : Drafting α}
    (h : ∀ v : View, v.Ready → View.Meets checked plain v fun _ v' => v.Advances v') :
    Conforms (onDraft checked) (onDraft plain) := by
  intro v t hv ht
  apply (meets_onDraft (h v hv)).mono
  rintro _ v' _ ⟨hadvances, rfl⟩
  exact ⟨hadvances, ht.mono hadvances.declared, rfl⟩

/-- A part of a draft that does not change the view. -/
theorem Conforms.still {checked plain : Drafting α}
    (h : ∀ v : View, v.Ready → View.Meets checked plain v fun _ v' => v' = v) :
    Conforms (Lower.onDraft checked) (Lower.onDraft plain) := by
  apply Conforms.onDraft
  intro v hv
  apply (h v hv).mono
  rintro _ _ rfl
  exact .rfl' hv

/-- Work on the state that leaves draft and names. -/
theorem Conforms.look {work : Lower α}
    (h : ∀ s a s', work s = .ok (a, s') → s'.draft = s.draft ∧ s'.symbols = s.symbols) :
    Conforms work work := by
  rintro v t hv ht s hs rfl
  refine ⟨rfl, fun a s' hrun => ?_⟩
  obtain ⟨hdraft, hsymbols⟩ := h s a s' hrun
  rw [hdraft, hsymbols]
  exact ⟨v, hs, .rfl' hv, ht, rfl⟩

theorem meets_pushScope (v : View) (t : SymbolTable) :
    Meets (modify fun s => { s with symbols := s.symbols.pushScope })
      (modify fun s => { s with symbols := s.symbols.pushScope }) v t
      fun (_ : PUnit) v' t' => v' = v ∧ t' = t.pushScope := by
  rintro s hs rfl
  refine ⟨rfl, fun a s' hrun => ?_⟩
  cases hrun
  exact ⟨v, hs, rfl, rfl⟩

/-- In a scope of its own, work leaves the scopes. -/
theorem meets_inScope (h : Conforms checked plain) (hv : v.Ready) (ht : t.Known v.declared) :
    Meets (inScope checked) (inScope plain) v t
      fun _ v' t' => v.Advances v' ∧ t'.scopes = t.scopes := by
  apply (meets_pushScope v t).bind
  intro _ v₀ t₀ ⟨hsame, hpushed⟩
  subst hsame hpushed
  apply (h v₀ t.pushScope hv ht).bind
  rintro a v₁ t₁ ⟨hadvances, ht₁, henclosing⟩
  apply meets_onSymbols.bind
  rintro _ _ t₂ ⟨rfl, hpop⟩
  apply meets_pure
  refine ⟨hadvances, ?_⟩
  -- The scope that is closed is the one that was opened.
  unfold SymbolTable.popScope at hpop
  rw [henclosing] at hpop
  cases hpop
  rfl

theorem Conforms.inScope (h : Conforms checked plain) :
    Conforms (inScope checked) (inScope plain) := by
  intro v t hv ht
  apply (meets_inScope h hv ht).mono
  rintro _ v' t' ⟨hadvances, hscopes⟩
  exact ⟨hadvances, (ht.mono hadvances.declared).congr hscopes, (List.cons.inj hscopes).2⟩

/-! ## Names -/

theorem conforms_variableOf (name : String) : Conforms (variableOf name) (variableOf name) := by
  apply Conforms.look
  intro s x s' hrun
  unfold variableOf at hrun
  split at hrun
  · cases hrun
    exact ⟨rfl, rfl⟩
  · cases hrun

/-- A name that stands for a variable stands for one that has been declared. -/
theorem meets_variableOf (name : String) (ht : t.Known v.declared) :
    Meets (variableOf name) (variableOf name) v t
      fun x v' t' => v.declared x = true ∧ v' = v ∧ t' = t := by
  rintro s hs rfl
  refine ⟨rfl, fun x s' hrun => ?_⟩
  unfold variableOf at hrun
  split at hrun
  · next id hfind =>
    cases hrun
    exact ⟨v, hs, ht.findVariable hfind, rfl, rfl⟩
  · cases hrun

theorem meets_define (name : String) (binding : Binding) :
    Meets (define name binding) (define name binding) v t
      fun x v' t' => v' = v ∧ t.define name binding = .ok (x, t') :=
  meets_onSymbols

/-- A variable is declared as soon as it is in scope. -/
theorem meets_introduced {name : String} {ty : Ty} {work : Lower SymbolId}
    {checkedRest plainRest : SymbolId → Lower α} (hv : v.Ready) (ht : t.Known v.declared)
    (hwork : Meets work work v t fun x v' t' => v' = v ∧ t.define name .var = .ok (x, t'))
    (hrest : ∀ x t', t'.Known (v.declare x).declared → t'.enclosing = t.enclosing →
      Meets (checkedRest x) (plainRest x) (v.declare x) t' mid) :
    Meets (do
        let x ← work
        Lower.onDraft (Drafting.declare x ty)
        checkedRest x)
      (do
        let x ← work
        Lower.onDraft (Drafting.declare x ty)
        plainRest x) v t mid := by
  apply hwork.bind
  rintro x v₁ t₁ ⟨rfl, hdefine⟩
  apply (meets_onDraft (View.meets_declare x ty _)).bind
  intro _ v₂ t₂ ⟨hview, hsame⟩
  subst hview hsame
  apply hrest x t₂
  · apply (ht.mono fun y hy => ?_).define hdefine
    · simp
    · simp [hy]
  · obtain ⟨-, rfl⟩ := SymbolTable.define_ok hdefine
    rfl

theorem conforms_writeHere (x : SymbolId) (u : Value) : Conforms (writeHere x u) (writeHere x u) := by
  apply Conforms.still
  intro v hv
  apply (View.meets_currentBlock v).know
  exact View.meets_write _ _ _ _

theorem conforms_introduce (name : String) (ty : Ty) (u : Value) :
    Conforms (introduce name ty u) (introduce name ty u) := by
  intro v t hv ht
  apply meets_introduced hv ht (meets_define name .var)
  intro x t₁ ht₁ henclosing
  apply (conforms_writeHere x u (v.declare x) t₁ (hv.declare x) ht₁).bind
  rintro _ v₂ t₂ ⟨hadvances, ht₂, henclosing₂⟩
  apply meets_pure
  exact ⟨(View.Advances.declare hv x).trans hadvances, ht₂, henclosing₂.trans henclosing⟩

/-! ## Parts of expressions -/

theorem conforms_emit (inst : Inst) (ty : Ty) :
    Conforms (Checked.emit checks inst ty) (emit inst ty) :=
  Conforms.still fun _ hv => View.meets_push inst ty hv.isOpen

theorem conforms_typeOf (u : Value) : Conforms (typeOf u) (typeOf u) :=
  Conforms.still fun v _ => View.meets_typeOf u v

theorem conforms_coerce (u : Value) (target : Ty) :
    Conforms (Checked.coerce checks u target) (coerce u target) := by
  apply (conforms_typeOf u).bind
  intro source
  split
  · exact .pure u
  · cases source <;> cases target
    case int.float => exact conforms_emit _ _
    case float.int => exact conforms_emit _ _
    all_goals exact .throw _

theorem conforms_truthy (u : Value) : Conforms (Checked.truthy checks u) (truthy u) := by
  apply (conforms_typeOf u).bind
  intro ty
  cases ty
  case int => exact (conforms_emit _ _).bind fun _ => conforms_emit _ _
  case float => exact (conforms_emit _ _).bind fun _ => conforms_emit _ _
  all_goals exact .throw _

theorem conforms_markMayFault : Conforms markMayFault markMayFault := by
  apply Conforms.look
  intro s _ s' hrun
  cases hrun
  exact ⟨rfl, rfl⟩

theorem conforms_infixOp (fault : FaultConfig) (op : InfixOp) (lhs rhs : Value) :
    Conforms (Checked.infixOp checks fault op lhs rhs) (infixOp fault op lhs rhs) := by
  apply (conforms_typeOf lhs).bind
  intro lhsTy
  apply (conforms_typeOf rhs).bind
  intro rhsTy
  apply (conforms_coerce lhs _).bind
  intro lhs
  apply (conforms_coerce rhs _).bind
  intro rhs
  generalize meet lhsTy rhsTy = ty
  rcases operation op with arith | cmp
  · cases ty
    case float => exact conforms_emit _ _
    all_goals
      cases arith
      case div =>
        apply (Conforms.onDraft fun v hv => View.meets_checkedDiv fault lhs rhs hv).bind
        intro ⟨quotient, sites⟩
        exact conforms_markMayFault.bind fun _ => .pure quotient
      all_goals exact conforms_emit _ _
  · cases ty
    all_goals exact (conforms_emit _ _).bind fun _ => conforms_emit _ _

theorem conforms_negate (u : Value) : Conforms (Checked.negate checks u) (negate u) := by
  apply (conforms_typeOf u).bind
  intro ty
  cases ty
  all_goals exact (conforms_emit _ _).bind fun _ => conforms_emit _ _

theorem conforms_checkArity (name : String) (expected found : Nat) :
    Conforms (checkArity name expected found) (checkArity name expected found) := by
  unfold checkArity
  split
  · exact .pure _
  · exact .throw _

theorem conforms_callWith (fault : FaultConfig) (name : String) (count : Nat)
    {checkedValues values : Lower (List Value)} (hvalues : Conforms checkedValues values) :
    Conforms (Checked.callWith checks fault name count checkedValues)
      (callWith fault name count values) := by
  apply Conforms.bind (Conforms.look fun s a s' hrun => by
    cases hrun
    exact ⟨rfl, rfl⟩)
  intro isPi
  split
  · exact (conforms_checkArity _ _ _).bind fun _ => conforms_emit _ _
  · apply Conforms.bind (Conforms.look fun s a s' hrun => ?_)
    · intro ⟨_, arity, mayFault⟩
      apply (conforms_checkArity _ _ _).bind
      intro _
      apply hvalues.bind
      intro arguments
      dsimp only
      split
      · apply (Conforms.onDraft fun v hv => View.meets_invoke fault name arguments hv).bind
        intro ⟨result, sites⟩
        exact .pure result
      · exact conforms_emit _ _
    · split at hrun
      · cases hrun
        exact ⟨rfl, rfl⟩
      · cases hrun

/-- A variable in scope is read. -/
theorem conforms_variable (name : String) :
    Conforms (do Checked.readHere checks (← variableOf name)) (do readHere (← variableOf name)) := by
  intro v t hv ht
  apply (meets_variableOf name ht).bind
  intro x v₁ t₁ ⟨hx, hview, hsame⟩
  subst hview hsame
  apply (meets_onDraft ((View.meets_currentBlock v₁).know (View.meets_read _ hx))).mono
  intro u v₂ t₂ ⟨hview, hsame⟩
  subst hview hsame
  exact ⟨.rfl' hv, ht, rfl⟩

/-! ## Expressions -/

mutual

/-- An expression does with its demands what it does without them. -/
theorem conforms_expression (fault : FaultConfig) : (tree : Tree) →
    Conforms (Checked.expression checks fault tree) (expression fault tree)
  | .node span (.integer n) => (conforms_emit _ _).located span
  | .node span (.floating x) => (conforms_emit _ _).located span
  | .node span (.ident name) => (conforms_variable name).located span
  | .node span (.infixOp op left right) => by
    apply Conforms.located
    apply (conforms_expression fault left).bind
    intro lhs
    apply (conforms_expression fault right).bind
    intro rhs
    exact conforms_infixOp fault op lhs rhs
  | .node span (.negate operand) => by
    apply Conforms.located
    exact (conforms_expression fault operand).bind conforms_negate
  | .node span (.call name arguments) => by
    apply Conforms.located
    exact conforms_callWith fault name _ (conforms_argumentItems fault arguments)
  | .node span (.program _) | .node span (.list _) | .node span (.letVar _ _)
  | .node span (.setVar _ _) | .node span (.ifElse _ _ _) | .node span (.forLoop _ _ _)
  | .node span (.giveBack _) | .node span (.fnDef _ _ _) => (Conforms.throw _).located span
termination_by structural tree => tree

theorem conforms_argumentItems (fault : FaultConfig) : (tree : Tree) →
    Conforms (Checked.argumentItems checks fault tree) (argumentItems fault tree)
  | .node _ (.program items) => conforms_arguments fault items
  | .node _ (.list items) => conforms_arguments fault items
  | .node _ (.integer _) | .node _ (.floating _) | .node _ (.ident _) | .node _ (.infixOp _ _ _)
  | .node _ (.negate _) | .node _ (.call _ _) | .node _ (.letVar _ _) | .node _ (.setVar _ _)
  | .node _ (.ifElse _ _ _) | .node _ (.forLoop _ _ _) | .node _ (.giveBack _)
  | .node _ (.fnDef _ _ _) => .pure []
termination_by structural tree => tree

theorem conforms_arguments (fault : FaultConfig) : (trees : List Tree) →
    Conforms (Checked.arguments checks fault trees) (arguments fault trees)
  | [] => .pure []
  | first :: rest => by
    apply (conforms_expression fault first).bind
    intro u
    apply (conforms_coerce u .int).bind
    intro value
    exact (conforms_arguments fault rest).bind fun _ => .pure _
termination_by structural trees => trees

end

/-! ## Parts of statements -/

theorem conforms_giveBack (u : Value) :
    Conforms (Checked.giveBack checks u) (giveBack u) :=
  Conforms.onDraft fun _ hv => View.meets_giveBack u hv

/-- A jump to a block that has not been sealed. -/
theorem meets_jumpTo {b : Block} (hopen : v.Open) (hb : v.isSealed b.index = false) :
    Meets (Checked.jumpTo checks b) (jumpTo b) v t fun _ v' t' => v' = v.finish ∧ t' = t :=
  meets_onDraft (View.meets_terminate hopen (by simp [Terminator.successors, hb]))

theorem conforms_ifElse (condition : Value) {checkedThen plainThen checkedElse plainElse : Lower Unit}
    (hthen : Conforms checkedThen plainThen) (helse : Conforms checkedElse plainElse) :
    Conforms (Checked.ifElse checks condition checkedThen checkedElse)
      (ifElse condition plainThen plainElse) := by
  apply (conforms_truthy condition).bind
  intro test v t hv ht
  apply (meets_onDraft (View.meets_split test hv)).bind
  intro blocks v₁ t₁ ⟨⟨hblocks, hview⟩, hsame⟩
  subst hblocks hview hsame
  apply (hthen v.split t₁ hv.split ht).bind
  intro _ w t₂ ⟨hw, ht₂, henclosing⟩
  apply (meets_jumpTo hw.ready.isOpen (hw.meeting hv).1.1).bind
  intro _ v₃ t₃ ⟨hview, hsame⟩
  subst hview hsame
  apply (meets_onDraft (View.meets_setCurrent _ _)).bind
  intro _ v₄ t₄ ⟨hview, hsame⟩
  subst hview hsame
  apply (helse (v.switch w) t₄ (hw.switch hv) ht₂).bind
  intro _ u t₅ ⟨hu, ht₅, henclosing'⟩
  apply (meets_jumpTo hu.ready.isOpen (hw.meetingAgain hv hu).1.1).bind
  intro _ v₆ t₆ ⟨hview, hsame⟩
  subst hview hsame
  apply (meets_onDraft ((View.meets_sealBlock (by exact (hw.meetingAgain hv hu).1.1)).step
    fun _ => View.meets_setCurrent _ _)).mono
  intro _ v₇ t₇ ⟨hview, hsame⟩
  subst hview hsame
  exact ⟨hw.join hv hu, ht₅, henclosing'.trans henclosing⟩

theorem conforms_forLoop (index : String) (bound : Value) {checkedBody plainBody : Lower Unit}
    (hbody : Conforms checkedBody plainBody) :
    Conforms (Checked.forLoop checks index bound checkedBody) (forLoop index bound plainBody) := by
  apply Conforms.inScope
  intro v₀ t₀ hv₀ ht₀
  apply meets_introduced hv₀ ht₀ (meets_define index .var)
  intro x t ht henclosing
  -- From here on the index is a variable like others.
  have hx : (v₀.declare x).declared x = true := by simp
  have hdeclares : v₀.Advances (v₀.declare x) := .declare hv₀ x
  have hv : (v₀.declare x).Ready := hv₀.declare x
  generalize v₀.declare x = v at ht hx hdeclares hv
  apply (conforms_emit _ _ v t hv ht).bind
  intro zero v₁ t₁ ⟨hadvances, ht₁, henclosing₁⟩
  apply (conforms_writeHere x zero v₁ t₁ hadvances.ready ht₁).bind
  intro _ v₂ t₂ ⟨hadvances', ht₂, henclosing₂⟩
  have hready := hadvances'.ready
  have hx₂ := hadvances'.declared x (hadvances.declared x hx)
  apply (meets_onDraft (View.meets_loopHead bound hready hx₂)).bind
  intro blocks v₃ t₃ ⟨⟨hblocks, hview⟩, hsame⟩
  subst hblocks hview hsame
  apply (hbody v₂.loopHead t₃ hready.loopHead ht₂).bind
  intro _ w t₄ ⟨hw, ht₄, henclosing₄⟩
  apply (meets_jumpTo hw.ready.isOpen (hw.around hready).2.1.1).bind
  intro _ v₅ t₅ ⟨hview, hsame⟩
  subst hview hsame
  apply (meets_onDraft (View.meets_loopTail hready hw hx₂)).mono
  intro _ v₆ t₆ ⟨hview, hsame⟩
  subst hview hsame
  refine ⟨hdeclares.trans ((hadvances.trans hadvances').trans (hw.loop hready)), ht₄, ?_⟩
  rw [henclosing₄, henclosing₂, henclosing₁, henclosing]

/-- The type of a variable is looked up, which changes nothing. -/
theorem conforms_assign (name : String) (u : Value) :
    Conforms (Checked.assign checks name u) (assign name u) := by
  apply (conforms_variableOf name).bind
  intro x
  apply Conforms.bind (Conforms.look fun s a s' hrun => by
    cases hrun
    exact ⟨rfl, rfl⟩)
  intro s
  cases s.draft.known.type? x with
  | none => exact .throw _
  | some ty => exact (conforms_coerce u ty).bind fun _ => conforms_writeHere x _

/-- Between statements the current block has no end. -/
theorem conforms_boundary :
    Conforms (Lower.onDraft (Checked.demand checks .boundary)) (pure ()) := by
  rintro v t hv ht s hs rfl
  have hdemand : (Checked.demand checks .boundary).on s.draft = (.ok (), s.draft) := by
    apply Drafting.on_demand
    exact View.holds_instruction hv.isOpen hs.view
  constructor
  · unfold Lower.onDraft
    rw [hdemand]
    rfl
  · intro _ s' hrun
    cases hrun
    exact ⟨v, hs, .rfl' hv, ht, rfl⟩

theorem Conforms.boundary (h : Conforms checked plain) :
    Conforms (do Lower.onDraft (Checked.demand checks .boundary); checked) plain :=
  conforms_boundary.bind fun _ => h

/-! ## Statements -/

mutual

/-- A statement does with its demands what it does without them. -/
theorem conforms_statement (fault : FaultConfig) : (tree : Tree) →
    Conforms (Checked.statement checks fault tree) (statement fault tree)
  | .node span (.letVar name value) => by
    apply Conforms.located
    apply (conforms_expression fault value).bind
    intro u
    apply (conforms_typeOf u).bind
    intro ty
    exact (conforms_introduce name ty u).bind fun _ => .pure none
  | .node span (.setVar name value) => by
    apply Conforms.located
    apply (conforms_expression fault value).bind
    intro u
    exact (conforms_assign name u).bind fun _ => .pure none
  | .node span (.giveBack value) => by
    apply Conforms.located
    apply (conforms_expression fault value).bind
    intro u
    apply (conforms_coerce u .int).bind
    intro result
    exact (conforms_giveBack result).bind fun _ => .pure none
  | .node span (.ifElse condition thenBody none) => by
    apply Conforms.located
    apply (conforms_expression fault condition).bind
    intro c
    apply (conforms_ifElse c (conforms_items fault thenBody).inScope (.pure ())).bind
    exact fun _ => .pure none
  | .node span (.ifElse condition thenBody (some elseBody)) => by
    apply Conforms.located
    apply (conforms_expression fault condition).bind
    intro c
    apply (conforms_ifElse c (conforms_items fault thenBody).inScope
      (conforms_items fault elseBody).inScope).bind
    exact fun _ => .pure none
  | .node span (.forLoop index bound body) => by
    apply Conforms.located
    apply (conforms_expression fault bound).bind
    intro u
    apply (conforms_coerce u .int).bind
    intro limit
    apply (conforms_forLoop index limit (conforms_items fault body).inScope).bind
    exact fun _ => .pure none
  | .node span (.fnDef _ _ _) | .node span (.program _) | .node span (.list _) =>
    (Conforms.throw _).located span
  | .node span (.integer n) => ((conforms_expression fault _).bind fun _ => .pure _).located span
  | .node span (.floating x) => ((conforms_expression fault _).bind fun _ => .pure _).located span
  | .node span (.ident name) => ((conforms_expression fault _).bind fun _ => .pure _).located span
  | .node span (.infixOp op left right) =>
    ((conforms_expression fault _).bind fun _ => .pure _).located span
  | .node span (.negate operand) => ((conforms_expression fault _).bind fun _ => .pure _).located span
  | .node span (.call name arguments) =>
    ((conforms_expression fault _).bind fun _ => .pure _).located span
termination_by structural tree => tree

theorem conforms_items (fault : FaultConfig) : (tree : Tree) →
    Conforms (Checked.items checks fault tree) (items fault tree)
  | .node _ (.program items) => conforms_statements fault items
  | .node _ (.list items) => conforms_statements fault items
  | .node _ (.integer _) | .node _ (.floating _) | .node _ (.ident _) | .node _ (.infixOp _ _ _)
  | .node _ (.negate _) | .node _ (.call _ _) | .node _ (.letVar _ _) | .node _ (.setVar _ _)
  | .node _ (.ifElse _ _ _) | .node _ (.forLoop _ _ _) | .node _ (.giveBack _)
  | .node _ (.fnDef _ _ _) => .pure ()
termination_by structural tree => tree

theorem conforms_statements (fault : FaultConfig) : (trees : List Tree) →
    Conforms (Checked.statements checks fault trees) (statements fault trees)
  | [] => conforms_boundary
  | first :: rest => by
    apply Conforms.boundary
    exact (conforms_statement fault first).bind fun _ => conforms_statements fault rest
termination_by structural trees => trees

end

/-- The same for statements whose value is looked at. -/
theorem conforms_statementsValue (fault : FaultConfig) (trees : List Tree) :
    Conforms (Checked.statementsValue checks fault trees) (statementsValue fault trees) := by
  induction trees with
  | nil => exact (Conforms.pure none).boundary
  | cons first rest ih =>
    apply Conforms.boundary
    apply (conforms_statement fault first).bind
    intro v?
    exact ih.bind fun _ => .pure _

end Lower

end Abacus.Lowering
