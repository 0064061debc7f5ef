import Abacus.Proofs.Naming.Emission

/-!
# The name of the unit function

The walk through a unit defines one name that its text does not contain: that of the function of the
top-level statements. A unit that is well scoped with one such name is well scoped with any other that
is free, and a name is found to be defined twice only if the text defines it, or if it is the name of
the unit function.

* `NameEvent.Inner` — a walk that stays inside one scope: it closes the scopes that it opens, and
  defines variables only;
* `Renamed` — the same scopes, but for the name of the unit function in the outermost one;
* `Inner.renamed` — what is well scoped in the one is well scoped in the other;
* `wellScoped_unit_renamed` — a unit, under another name;
* `duplicate_defined` — which names can be defined twice.
-/

namespace Abacus

/-- The name of the function that an item defines, if it defines one. -/
def Tree.functionName? : Tree → Option String
  | .node _ (.fnDef name _ _) => some name
  | _ => none

/-- The names of the functions that a unit defines, in order. -/
def Tree.functionNames (tree : Tree) : List String := tree.items.filterMap functionName?

end Abacus

namespace Abacus.Lowering

namespace NameEvent

/-- The name that an event is about. -/
def name? : NameEvent → Option String
  | use _ name | call _ name _ | define _ name _ => some name
  | enter | leave => none

/-- The name that an event defines. -/
def defined? : NameEvent → Option String
  | define _ name _ => some name
  | use .. | call .. | enter | leave => none

/-- The walk through the text of a unit, without the name of the unit function. -/
def ofText (tree : Tree) : List NameEvent :=
  tree.items.flatMap ofDefinition ++
    ofStatements (tree.items.filter fun item => !Meaning.isDefinition item)

end NameEvent

/-- The names that the text of a unit mentions. -/
def mentionedNames (tree : Tree) : List String := (NameEvent.ofText tree).filterMap NameEvent.name?

/-- The names that the text of a unit defines. -/
def definedNames (tree : Tree) : List String := (NameEvent.ofText tree).filterMap NameEvent.defined?

/-! ## Walks inside a scope -/

namespace NameEvent

/-- A walk inside a scope: every scope that it opens is closed again, and what it defines are
variables. -/
inductive Inner : List NameEvent → Prop
  | nil : Inner []
  | use {span name events} : Inner events → Inner (use span name :: events)
  | call {span name count events} : Inner events → Inner (call span name count :: events)
  | define {span name events} : Inner events → Inner (define span name .var :: events)
  | scope {events later} : Inner events → Inner later → Inner (enclosed events ++ later)

namespace Inner

variable {events later : List NameEvent}

/-- A scope that is closed again leaves the scopes around it. -/
theorem foldl_enclosed {scopes : Scopes} {inner : Names}
    (h : events.foldl NameEvent.after (Scopes.noNames :: scopes) = inner :: scopes) :
    (NameEvent.enclosed events).foldl NameEvent.after scopes = scopes := by
  simp only [NameEvent.enclosed, List.cons_append, List.foldl_cons, List.foldl_append,
    List.foldl_nil, NameEvent.after, h, List.tail_cons]

theorem append (h : Inner events) (hlater : Inner later) : Inner (events ++ later) := by
  induction h with
  | nil => exact hlater
  | use _ ih => exact .use ih
  | call _ ih => exact .call ih
  | define _ ih => exact .define ih
  | scope h _ _ ih =>
    rw [List.append_assoc]
    exact .scope h ih

theorem enclosed (h : Inner events) : Inner (enclosed events) := by
  have h := h.scope .nil
  rwa [List.append_nil] at h

/-- After a walk inside a scope, the scopes around it are what they were. -/
theorem foldl_after (h : Inner events) (names : Names) (scopes : Scopes) :
    ∃ names', events.foldl NameEvent.after (names :: scopes) = names' :: scopes := by
  induction h generalizing names scopes with
  | nil => exact ⟨names, rfl⟩
  | use _ ih => exact ih names scopes
  | call _ ih => exact ih names scopes
  | define _ ih => exact ih _ scopes
  | @scope events later _ _ ih ihlater =>
    obtain ⟨inner, hinner⟩ := ih Scopes.noNames (names :: scopes)
    rw [List.foldl_append, foldl_enclosed hinner]
    exact ihlater names scopes

end Inner

mutual

theorem inner_ofExpression : ∀ t : Tree, Inner (ofExpression t)
  | .node _ (.ident _) => .use .nil
  | .node _ (.infixOp _ left right) => (inner_ofExpression left).append (inner_ofExpression right)
  | .node _ (.negate operand) => inner_ofExpression operand
  | .node _ (.call _ arguments) => .call (inner_ofArguments arguments)
  | .node _ (.program _) | .node _ (.list _) | .node _ (.integer _) | .node _ (.floating _)
  | .node _ (.letVar ..) | .node _ (.setVar ..) | .node _ (.ifElse ..) | .node _ (.forLoop ..)
  | .node _ (.giveBack _) | .node _ (.fnDef ..) => .nil
termination_by structural t => t

theorem inner_ofArguments : ∀ t : Tree, Inner (ofArguments t)
  | .node _ (.program items) => inner_ofExpressions items
  | .node _ (.list items) => inner_ofExpressions items
  | .node _ (.integer _) | .node _ (.floating _) | .node _ (.ident _) | .node _ (.infixOp ..)
  | .node _ (.negate _) | .node _ (.call ..) | .node _ (.letVar ..) | .node _ (.setVar ..)
  | .node _ (.ifElse ..) | .node _ (.forLoop ..) | .node _ (.giveBack _) | .node _ (.fnDef ..) =>
    .nil
termination_by structural t => t

theorem inner_ofExpressions : ∀ ts : List Tree, Inner (ofExpressions ts)
  | [] => .nil
  | first :: rest => (inner_ofExpression first).append (inner_ofExpressions rest)
termination_by structural ts => ts

end

mutual

/-- The walk through a statement stays inside the scope in which the statement stands. -/
theorem inner_ofStatement : ∀ t : Tree, Inner (ofStatement t)
  | .node _ (.letVar _ value) => (inner_ofExpression value).append (.define .nil)
  | .node _ (.setVar _ value) => (inner_ofExpression value).append (.use .nil)
  | .node _ (.giveBack value) => inner_ofExpression value
  | .node _ (.ifElse condition thenBody none) =>
    (inner_ofExpression condition).append (inner_ofBody thenBody).enclosed
  | .node _ (.ifElse condition thenBody (some elseBody)) =>
    ((inner_ofExpression condition).append (inner_ofBody thenBody).enclosed).append
      (inner_ofBody elseBody).enclosed
  | .node _ (.forLoop _ bound body) =>
    (inner_ofExpression bound).append (Inner.define (inner_ofBody body).enclosed).enclosed
  | .node _ (.program _) | .node _ (.list _) | .node _ (.fnDef ..) => .nil
  | .node span (.integer value) => inner_ofExpression (.node span (.integer value))
  | .node span (.floating value) => inner_ofExpression (.node span (.floating value))
  | .node span (.ident name) => inner_ofExpression (.node span (.ident name))
  | .node span (.infixOp op left right) => inner_ofExpression (.node span (.infixOp op left right))
  | .node span (.negate operand) => inner_ofExpression (.node span (.negate operand))
  | .node span (.call name arguments) => inner_ofExpression (.node span (.call name arguments))
termination_by structural t => t

theorem inner_ofBody : ∀ t : Tree, Inner (ofBody t)
  | .node _ (.program items) => inner_ofStatements items
  | .node _ (.list items) => inner_ofStatements items
  | .node _ (.integer _) | .node _ (.floating _) | .node _ (.ident _) | .node _ (.infixOp ..)
  | .node _ (.negate _) | .node _ (.call ..) | .node _ (.letVar ..) | .node _ (.setVar ..)
  | .node _ (.ifElse ..) | .node _ (.forLoop ..) | .node _ (.giveBack _) | .node _ (.fnDef ..) =>
    .nil
termination_by structural t => t

theorem inner_ofStatements : ∀ ts : List Tree, Inner (ofStatements ts)
  | [] => .nil
  | first :: rest => (inner_ofStatement first).append (inner_ofStatements rest)
termination_by structural ts => ts

end

theorem inner_parameters (span : Span) (parameters : List String) :
    Inner (parameters.map (define span · .var)) := by
  induction parameters with
  | nil => exact .nil
  | cons name rest ih => exact .define ih

end NameEvent

/-! ## Definitions -/

/-- A definition leaves the outermost scope open, and defines its own name there. -/
theorem foldl_definition (base : Names) (item : Tree) :
    ∃ base', (NameEvent.ofDefinition item).foldl NameEvent.after [base] = [base'] ∧
      ∀ name, item.functionName? ≠ some name → base' name = base name := by
  obtain ⟨span, shape⟩ := item
  cases shape with
  | fnDef function parameters body =>
    have hbody : NameEvent.Inner (parameters.map (.define span · .var) ++ NameEvent.ofBody body) :=
      (NameEvent.inner_parameters span parameters).append (NameEvent.inner_ofBody body)
    obtain ⟨inner, hinner⟩ := hbody.foldl_after Scopes.noNames
      [Function.update base function (some (.function parameters.length))]
    refine ⟨Function.update base function (some (.function parameters.length)), ?_, ?_⟩
    · rw [List.foldl_append] at hinner
      simp [NameEvent.ofDefinition, NameEvent.enclosed, NameEvent.after, Scopes.define,
        Scopes.innermost, List.foldl_append, hinner]
    · intro name hname
      have hne : name ≠ function := fun heq => hname (congrArg some heq.symm)
      exact Function.update_of_ne hne _ _
  | _ => exact ⟨base, rfl, fun _ _ => rfl⟩

/-- After definitions there is still one scope, and the names that they do not define stand for what
they did. -/
theorem foldl_definitions (base : Names) (items : List Tree) :
    ∃ base', (items.flatMap NameEvent.ofDefinition).foldl NameEvent.after [base] = [base'] ∧
      ∀ name, name ∉ items.filterMap Tree.functionName? → base' name = base name := by
  induction items generalizing base with
  | nil => exact ⟨base, rfl, fun _ _ => rfl⟩
  | cons item rest ih =>
    obtain ⟨middle, hitem, hkept⟩ := foldl_definition base item
    obtain ⟨base', hrest, hkept'⟩ := ih middle
    refine ⟨base', by rw [List.flatMap_cons, List.foldl_append, hitem, hrest], fun name hname => ?_⟩
    simp only [List.mem_filterMap, List.mem_cons, exists_eq_or_imp, not_or] at hname
    exact (hkept' name (by simpa using hname.2)).trans (hkept name hname.1)

/-! ## The unit function under another name -/

/-- The same scopes, but for the name of the unit function, which is defined in the outermost one. The
scopes inside have variables only. -/
inductive Renamed (unit other : String) : Scopes → Scopes → Prop
  | outermost {base : Names} : base unit = none → base other = none →
      Renamed unit other [Function.update base unit (some (.function 0))]
        [Function.update base other (some (.function 0))]
  | inside {names : Names} {scopes scopes'} :
      (∀ name arity, names name ≠ some (.function arity)) → Renamed unit other scopes scopes' →
      Renamed unit other (names :: scopes) (names :: scopes')

namespace Renamed

variable {unit other : String} {scopes scopes' : Scopes}

/-- Names other than those of the unit function stand for the same. -/
theorem find?_eq (h : Renamed unit other scopes scopes') {name : String} (hunit : name ≠ unit)
    (hother : name ≠ other) : scopes'.find? name = scopes.find? name := by
  induction h with
  | outermost => simp [Scopes.find?, Function.update_of_ne hunit, Function.update_of_ne hother]
  | @inside names scopes scopes' _ _ ih =>
    simp only [Scopes.find?, List.findSome?_cons] at ih ⊢
    rw [ih]

/-- The name that the unit function has on the other walk is no function here. -/
theorem find?_other (h : Renamed unit other scopes scopes') (hne : unit ≠ other) (arity : Nat) :
    scopes.find? other ≠ some (.function arity) := by
  induction h with
  | outermost _ hbase => simp [Scopes.find?, Function.update_of_ne hne.symm, hbase]
  | @inside names _ _ hnames _ ih =>
    simp only [Scopes.find?, List.findSome?_cons] at ih ⊢
    cases hname : names other with
    | none => exact ih
    | some kind => exact fun heq => hnames other arity (hname.trans heq)

/-- The same names are variables. -/
theorem find?_var (h : Renamed unit other scopes scopes') (name : String) :
    scopes.find? name = some .var ↔ scopes'.find? name = some .var := by
  induction h with
  | @outermost base hunit hother =>
    simp only [Scopes.find?, List.findSome?_cons, List.findSome?_nil, Function.update_apply]
    grind
  | @inside names _ _ _ _ ih =>
    simp only [Scopes.find?, List.findSome?_cons] at ih ⊢
    cases names name with
    | none => exact ih
    | some kind => rfl

end Renamed

section

variable {scopes scopes' : Scopes} {front back events : List NameEvent} {e : LoweringError}
  {unit other : String} {names : Names}

theorem wellScoped_append : WellScoped scopes (front ++ back) ↔
    WellScoped scopes front ∧ WellScoped (front.foldl NameEvent.after scopes) back := by
  induction front generalizing scopes with
  | nil => simp [wellScoped_nil]
  | cons event front ih =>
    rw [List.cons_append, wellScoped_cons, wellScoped_cons, ih, List.foldl_cons, and_assoc]

theorem firstViolation_append : FirstViolation scopes (front ++ back) e ↔
    FirstViolation scopes front e ∨
      WellScoped scopes front ∧ FirstViolation (front.foldl NameEvent.after scopes) back e := by
  induction front generalizing scopes with
  | nil => simp [wellScoped_nil, FirstViolation]
  | cons event front ih =>
    rw [List.cons_append, firstViolation_cons, firstViolation_cons, wellScoped_cons, ih,
      List.foldl_cons]
    grind

theorem wellScoped_enclosed {events : List NameEvent} :
    WellScoped scopes (NameEvent.enclosed events) ↔ WellScoped (Scopes.noNames :: scopes) events := by
  have hleave : ∀ s, WellScoped s [NameEvent.leave] := fun s =>
    wellScoped_cons.2 ⟨rfl, wellScoped_nil _⟩
  rw [NameEvent.enclosed, List.cons_append, wellScoped_cons, wellScoped_append]
  exact ⟨fun h => h.2.1, fun h => ⟨rfl, h, hleave _⟩⟩

/-- A walk inside a scope that does not call the unit function is well scoped under its other name as
well, and leads to the same scopes. -/
theorem NameEvent.Inner.renamed (h : NameEvent.Inner events) (hne : unit ≠ other)
    (hpi : other ≠ piName) (hcalls : ∀ span count, NameEvent.call span unit count ∉ events)
    (hscopes : Renamed unit other scopes scopes')
    (hnames : ∀ name arity, names name ≠ some (.function arity))
    (hscoped : WellScoped (names :: scopes) events) : WellScoped (names :: scopes') events ∧
      ∃ names', (∀ name arity, names' name ≠ some (.function arity)) ∧
        events.foldl NameEvent.after (names :: scopes) = names' :: scopes ∧
        events.foldl NameEvent.after (names :: scopes') = names' :: scopes' := by
  induction h generalizing names scopes scopes' with
  | nil => exact ⟨wellScoped_nil _, names, hnames, rfl, rfl⟩
  | @use span name events _ ih =>
    rw [wellScoped_cons] at hscoped ⊢
    have hall := Renamed.inside hnames hscopes
    obtain ⟨hscoped', hafter⟩ := ih (by simpa using hcalls) hscopes hnames hscoped.2
    refine ⟨⟨?_, hscoped'⟩, hafter⟩
    have hvar : Scopes.find? (names :: scopes) name = some .var := by
      simpa [NameEvent.violation?] using hscoped.1
    simpa [NameEvent.violation?] using (hall.find?_var name).1 hvar
  | @call span name count events _ ih =>
    rw [wellScoped_cons] at hscoped ⊢
    have hall := Renamed.inside hnames hscopes
    obtain ⟨hscoped', hafter⟩ := ih (fun span count h => hcalls span count (by simp [h])) hscopes
      hnames hscoped.2
    refine ⟨⟨?_, hscoped'⟩, hafter⟩
    have hunit : name ≠ unit := by
      rintro rfl
      exact hcalls span count (by simp)
    -- On this walk a call of `other` calls no function, and nothing may be wrong with it.
    have hother : name ≠ other := by
      rintro rfl
      have hfunction := hall.find?_other hne
      have hfine := hscoped.1
      simp only [NameEvent.violation?] at hfine
      split at hfine
      · next arity heq => exact hfunction arity heq
      · cases hfine
      · simp [hpi] at hfine
    simpa only [NameEvent.violation?, hall.find?_eq hunit hother] using hscoped.1
  | @define span name events _ ih =>
    rw [wellScoped_cons] at hscoped ⊢
    have hcalls' : ∀ span count, NameEvent.call span unit count ∉ events :=
      fun span count h => hcalls span count (List.mem_cons_of_mem _ h)
    have hnames' : ∀ other arity,
        Function.update names name (some .var) other ≠ some (.function arity) := by
      intro other arity
      rw [Function.update_apply]
      split
      · simp
      · exact hnames other arity
    obtain ⟨hscoped', hafter⟩ := ih hcalls' hscopes hnames' hscoped.2
    exact ⟨⟨hscoped.1, hscoped'⟩, hafter⟩
  | @scope events later hinner _ ih ihlater =>
    rw [wellScoped_append, wellScoped_enclosed] at hscoped ⊢
    have hleft : ∀ s, (NameEvent.enclosed events).foldl NameEvent.after (names :: s) = names :: s := by
      intro s
      obtain ⟨inner, hafter⟩ := hinner.foldl_after Scopes.noNames (names :: s)
      exact NameEvent.Inner.foldl_enclosed hafter
    rw [hleft] at hscoped ⊢
    have hcalls₁ : ∀ span count, NameEvent.call span unit count ∉ events :=
      fun span count h => hcalls span count (by simp [NameEvent.enclosed, h])
    have hcalls₂ : ∀ span count, NameEvent.call span unit count ∉ later :=
      fun span count h => hcalls span count (List.mem_append_right _ h)
    obtain ⟨hscoped₁, -⟩ := ih hcalls₁ (.inside hnames hscopes) (by simp [Scopes.noNames]) hscoped.1
    obtain ⟨hscoped₂, hafter⟩ := ihlater hcalls₂ hscopes hnames hscoped.2
    simp only [List.foldl_append, hleft]
    exact ⟨⟨hscoped₁, hscoped₂⟩, hafter⟩

end

/-! ## Units -/

section

variable {tree : Tree} {exports : List Export} {unit other name : String} {e : LoweringError}

/-- The names that earlier units export make up the outermost scope. -/
theorem ofExports_eq_none (h : name ∉ exports.map Export.name) :
    (Scopes.ofExports exports).innermost name = none := by
  have hfind : exports.find? (·.name = name) = none := by
    rw [List.find?_eq_none]
    intro e he hname
    exact h (List.mem_map.2 ⟨e, he, by simpa using hname⟩)
  simp [Scopes.ofExports, Scopes.innermost, hfind]

/-- A unit that is well scoped stays so if its function gets another free name, unless it calls its
own function. -/
theorem wellScoped_unit_renamed (hunit : unit ∉ mentionedNames tree) (hpi : other ≠ piName)
    (hexports : other ∉ exports.map Export.name) (hfunctions : other ∉ tree.functionNames)
    (h : WellScoped (Scopes.ofExports exports) (NameEvent.ofUnit unit tree)) :
    WellScoped (Scopes.ofExports exports) (NameEvent.ofUnit other tree) := by
  by_cases hne : unit = other
  · exact hne ▸ h
  unfold NameEvent.ofUnit at h ⊢
  cases hrest : tree.items.filter fun item => !Meaning.isDefinition item with
  | nil =>
    rw [hrest] at h
    exact h
  | cons first rest =>
    rw [hrest, NameEvent.ofTopLevel, wellScoped_append, wellScoped_cons, wellScoped_enclosed] at h
    rw [NameEvent.ofTopLevel, wellScoped_append, wellScoped_cons, wellScoped_enclosed]
    obtain ⟨hdefinitions, hnew, hscoped⟩ := h
    obtain ⟨base, hbase, hkept⟩ :=
      foldl_definitions (Scopes.ofExports exports).innermost tree.items
    have hsingle : Scopes.ofExports exports = [(Scopes.ofExports exports).innermost] := rfl
    rw [← hsingle] at hbase
    have hother : base other = none := (hkept other hfunctions).trans (ofExports_eq_none hexports)
    have hunit' : base unit = none := by
      simpa [NameEvent.violation?, hbase, Scopes.innermost] using hnew
    have hrenamed := Renamed.outermost hunit' hother
    have hcalls : ∀ span count,
        NameEvent.call span unit count ∉ NameEvent.ofStatements (first :: rest) := by
      intro span count hmem
      refine hunit (List.mem_filterMap.2
        ⟨.call span unit count, List.mem_append_right _ ?_, rfl⟩)
      rw [hrest]
      exact hmem
    rw [hbase] at hscoped ⊢
    obtain ⟨hscoped', -⟩ := (NameEvent.inner_ofStatements (first :: rest)).renamed hne hpi hcalls
      hrenamed (by simp [Scopes.noNames]) hscoped
    refine ⟨hdefinitions, ?_, hscoped'⟩
    simp [NameEvent.violation?, Scopes.innermost, hother]

/-- A violation is one of the events of the walk. -/
theorem FirstViolation.exists_mem {scopes : Scopes} {events : List NameEvent}
    (h : FirstViolation scopes events e) : ∃ event ∈ events, ∃ scopes, event.violation? scopes = some e := by
  obtain ⟨front, event, back, rfl, -, hviolation⟩ := h
  exact ⟨event, by simp, _, hviolation⟩

/-- Only a definition is wrong because a name is defined already. -/
theorem NameEvent.defined?_of_duplicate {event : NameEvent} {scopes : Scopes}
    (h : event.violation? scopes = some e) (hcause : e.cause = .duplicate name) :
    event.defined? = some name := by
  unfold NameEvent.violation? at h
  split at h
  · split at h <;> cases h
    cases hcause
  · split at h
    · split at h <;> cases h
      cases hcause
    · cases h
      cases hcause
    · split at h
      · split at h <;> cases h
        cases hcause
      · cases h
        cases hcause
  · split at h <;> cases h
    cases hcause
    rfl
  · cases h
  · cases h

theorem functionNames_subset_definedNames (h : name ∈ tree.functionNames) :
    name ∈ definedNames tree := by
  obtain ⟨item, hitem, hname⟩ := List.mem_filterMap.1 h
  refine List.mem_filterMap.2 ?_
  obtain ⟨span, shape⟩ := item
  cases shape with
  | fnDef function parameters body =>
    refine ⟨.define span function (.function parameters.length), ?_, hname⟩
    exact List.mem_append_left _ (List.mem_flatMap.2 ⟨_, hitem, by simp [NameEvent.ofDefinition]⟩)
  | _ => cases hname

/-- A name that is defined twice is defined by the text of the unit, or it is the name of the unit
function and earlier units export it. -/
theorem duplicate_defined
    (h : FirstViolation (Scopes.ofExports exports) (NameEvent.ofUnit unit tree) e)
    (hcause : e.cause = .duplicate name) :
    name ∈ definedNames tree ∨ name = unit ∧ unit ∈ exports.map Export.name := by
  have hdefined : ∀ {events : List NameEvent} {scopes : Scopes}, FirstViolation scopes events e →
      events ⊆ NameEvent.ofText tree ++ [.enter, .leave] → name ∈ definedNames tree := by
    intro events scopes h hevents
    obtain ⟨event, hmem, _, hviolation⟩ := h.exists_mem
    have hname := NameEvent.defined?_of_duplicate hviolation hcause
    rcases List.mem_append.1 (hevents hmem) with hmem | hmem
    · exact List.mem_filterMap.2 ⟨event, hmem, hname⟩
    · rcases List.mem_pair.1 hmem with rfl | rfl <;> cases hname
  unfold NameEvent.ofUnit at h
  rcases firstViolation_append.1 h with h | ⟨-, h⟩
  · refine .inl (hdefined h fun event hmem => ?_)
    exact List.mem_append_left _ (List.mem_append_left _ hmem)
  · cases hrest : tree.items.filter fun item => !Meaning.isDefinition item with
    | nil =>
      rw [hrest] at h
      exact .inl (hdefined h (by simp [NameEvent.ofTopLevel]))
    | cons first rest =>
      rw [hrest, NameEvent.ofTopLevel] at h
      rcases firstViolation_cons.1 h with hviolation | ⟨-, h⟩
      · -- The name of the unit function is taken: by a definition of the text, or by an export.
        obtain rfl : unit = name := by
          simpa [NameEvent.defined?] using NameEvent.defined?_of_duplicate hviolation hcause
        by_contra hno
        obtain ⟨htext, hexports⟩ : unit ∉ definedNames tree ∧ unit ∉ exports.map Export.name := by
          simpa using hno
        obtain ⟨base, hbase, hkept⟩ :=
          foldl_definitions (Scopes.ofExports exports).innermost tree.items
        have hsingle : Scopes.ofExports exports = [(Scopes.ofExports exports).innermost] := rfl
        have hnone : base unit = none :=
          (hkept unit (mt functionNames_subset_definedNames htext)).trans
            (ofExports_eq_none hexports)
        rw [hsingle, hbase] at hviolation
        simp [NameEvent.violation?, Scopes.innermost, hnone] at hviolation
      · refine .inl (hdefined h fun event hmem => ?_)
        unfold NameEvent.ofText
        rw [hrest]
        simp only [NameEvent.enclosed, List.mem_append, List.mem_cons, List.not_mem_nil,
          or_false] at hmem ⊢
        grind

end

end Abacus.Lowering
