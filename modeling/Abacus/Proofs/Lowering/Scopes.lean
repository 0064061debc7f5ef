import Abacus.Proofs.Lowering.Functions
import Abacus.Proofs.Lowering.Silent
import Abacus.Proofs.Symbols.Operations

/-!
# Names in scope

A name in scope stands for a variable that has been written on every way to where lowering stands.
So every read of a finished function is behind a write of the same variable on every path, which is
what the search for variables relies on.

* `SymbolTable.Orderly`, `SymbolTable.Grown` — the identities of symbols, and what statements do to
  a table;
* `Plan.Tidy` — reads are behind writes, writes have the type of their variable, and faults are
  raised where the fault flag says so;
* `Values.tidy`, `Statements.tidy` — expressions and statements keep to this;
* `Made.complete` — the recording of a function that has been lowered is complete.
-/

namespace Abacus.Lowering

open Abacus.Flow (Value Block Ty Inst Terminator Builder)

/-! ## Tables -/

namespace SymbolTable

/-- All names, those of the innermost scope first. -/
def entries (t : SymbolTable) : List (String × Symbol) := t.scopes.flatten

/-- The identities of the names differ, and none of them will be given again. -/
structure Orderly (t : SymbolTable) : Prop where
  fresh : ∀ e ∈ t.entries, e.2.id.number < t.fresh
  distinct : (t.entries.map (·.2.id)).Nodup

/-- What statements do to a table: they add variables to the innermost scope. -/
structure Grown (t t' : SymbolTable) : Prop where
  enclosing : t'.enclosing = t.enclosing
  innermost : ∃ new, t'.innermost = new ++ t.innermost ∧ ∀ e ∈ new, e.2.binding = .var
  fresh : t.fresh ≤ t'.fresh

variable {t t₁ t₂ : SymbolTable} {name : String}

theorem mem_of_lookup {scope : Scope} {s : Symbol} (h : scope.lookup name = some s) :
    (name, s) ∈ scope := by
  obtain ⟨front, back, rfl, -⟩ := List.lookup_eq_some_iff.1 h
  simp

theorem mem_entries_of_lookup? {s : Symbol} (h : t.lookup? name = some s) :
    (name, s) ∈ t.entries := by
  obtain ⟨scope, hscope, hlookup⟩ := List.exists_of_findSome?_eq_some h
  exact List.mem_flatten.2 ⟨scope, hscope, mem_of_lookup hlookup⟩

theorem findVariable_ok {x : SymbolId} (h : t.findVariable name = .ok x) :
    t.lookup? name = some ⟨x, .var⟩ := by
  unfold findVariable at h
  split at h
  · next hlookup =>
    cases h
    exact hlookup
  · cases h

theorem findFunction_ok {id : SymbolId} {arity : Nat} {handled : Bool}
    (h : t.findFunction name = .ok (id, arity, handled)) :
    t.lookup? name = some ⟨id, .function arity handled⟩ := by
  unfold findFunction at h
  split at h
  · next hlookup =>
    cases h
    exact hlookup
  · cases h

/-- A name stands for the first entry that has it. -/
theorem lookup?_eq (t : SymbolTable) (name : String) : t.lookup? name = t.entries.lookup name := by
  unfold lookup? entries
  induction t.scopes with
  | nil => rfl
  | cons scope scopes ih =>
    rw [List.findSome?_cons, List.flatten_cons, List.lookup_append, ih]
    cases scope.lookup name <;> rfl

theorem entries_define {binding : Binding} {x : SymbolId}
    (h : t.define name binding = .ok (x, t₁)) : t₁.entries = (name, ⟨x, binding⟩) :: t.entries := by
  obtain ⟨-, rfl⟩ := define_ok h
  rfl

/-- A variable is found under its name. -/
theorem findVariable_define {x : SymbolId} (h : t.define name .var = .ok (x, t₁)) :
    t₁.findVariable name = .ok x := by
  have hlookup : t₁.lookup? name = some ⟨x, .var⟩ := by
    rw [lookup?_eq, entries_define h, List.lookup_cons_self]
  unfold findVariable
  rw [hlookup]

theorem Orderly.define {binding : Binding} {x : SymbolId} (ht : t.Orderly)
    (h : t.define name binding = .ok (x, t₁)) : t₁.Orderly := by
  have hentries := entries_define h
  obtain ⟨rfl, rfl⟩ := define_ok h
  constructor
  · intro e he
    rw [hentries] at he
    rcases List.mem_cons.1 he with rfl | he
    · exact Nat.lt_succ_self _
    · exact Nat.lt_succ_of_lt (ht.fresh e he)
  · rw [hentries, List.map_cons, List.nodup_cons]
    refine ⟨fun hmem => ?_, ht.distinct⟩
    obtain ⟨e, he, hid⟩ := List.mem_map.1 hmem
    have hlt := ht.fresh e he
    rw [hid] at hlt
    exact Nat.lt_irrefl _ hlt

theorem Orderly.pushScope (ht : t.Orderly) : t.pushScope.Orderly := ⟨ht.fresh, ht.distinct⟩

theorem Grown.rfl' (t : SymbolTable) : Grown t t := ⟨rfl, ⟨[], rfl, by simp⟩, Nat.le_refl _⟩

theorem Grown.trans (h₁ : Grown t t₁) (h₂ : Grown t₁ t₂) : Grown t t₂ := by
  obtain ⟨new₁, he₁, hvar₁⟩ := h₁.innermost
  obtain ⟨new₂, he₂, hvar₂⟩ := h₂.innermost
  refine ⟨h₂.enclosing.trans h₁.enclosing, ⟨new₂ ++ new₁, ?_, fun e he => ?_⟩,
    Nat.le_trans h₁.fresh h₂.fresh⟩
  · rw [he₂, he₁, List.append_assoc]
  · rcases List.mem_append.1 he with he | he
    · exact hvar₂ e he
    · exact hvar₁ e he

theorem Grown.define {x : SymbolId} (h : t.define name .var = .ok (x, t₁)) : Grown t t₁ := by
  obtain ⟨-, rfl⟩ := define_ok h
  exact ⟨rfl, ⟨[(name, ⟨x, .var⟩)], rfl, by simp⟩, Nat.le_succ _⟩

/-- The scope that was opened last is closed again. -/
theorem Grown.popped (h : Grown t.pushScope t₁) (hpop : t₁.popScope = .ok t₂) :
    t₂.scopes = t.scopes ∧ t₂.fresh = t₁.fresh := by
  unfold popScope at hpop
  rw [h.enclosing] at hpop
  cases hpop
  exact ⟨rfl, rfl⟩

theorem Grown.popScope (h : Grown t.pushScope t₁) (hpop : t₁.popScope = .ok t₂) : Grown t t₂ := by
  obtain ⟨hscopes, hfresh⟩ := h.popped hpop
  obtain ⟨hinnermost, henclosing⟩ := List.cons.inj hscopes
  exact ⟨henclosing, ⟨[], hinnermost, by simp⟩, hfresh ▸ h.fresh⟩

theorem Orderly.popped (ht : t₁.Orderly) (h : Grown t.pushScope t₁)
    (hpop : t₁.popScope = .ok t₂) : t₂.Orderly := by
  have hentries : t₂.entries.Sublist t₁.entries := by
    unfold SymbolTable.popScope at hpop
    split at hpop
    · cases hpop
    · next heq =>
      cases hpop
      unfold entries scopes
      rw [heq]
      exact List.sublist_append_right ..
  constructor
  · intro e he
    rw [(h.popped hpop).2]
    exact ht.fresh e (hentries.subset he)
  · exact ht.distinct.sublist (hentries.map _)

end SymbolTable

/-! ## What is kept -/

namespace Plan

variable {σ σ₁ σ₂ σ' ω : Plan} {x : SymbolId} {b b₁ b₂ : Bool} {config : FaultConfig}
  {opened symbols symbols' : SymbolTable}

/-- The variable has been written on every way to where lowering stands. -/
def Written (σ : Plan) (x : SymbolId) : Prop :=
  ∃ a ∈ σ.spine σ.current, ∃ v, .write x v ∈ σ.record.script a

/-- One plan comes behind another on every way. -/
structure Behind (σ σ' : Plan) : Prop where
  extends' : Extends σ σ'
  spine : ∀ a ∈ σ.spine σ.current, a ∈ σ'.spine σ'.current

theorem Behind.trans (h₁ : Behind σ σ₁) (h₂ : Behind σ₁ σ₂) : Behind σ σ₂ :=
  ⟨h₁.extends'.trans h₂.extends', fun a ha => h₂.spine a (h₁.spine a ha)⟩

theorem Advance.behind (h : Advance σ σ') : Behind σ σ' := ⟨h.since.extends', h.spine⟩

theorem FirstBody.behind (h : FirstBody σ σ') : Behind σ σ' :=
  ⟨h.since.extends', fun a ha => by rw [h.spine]; exact List.mem_cons_of_mem _ ha⟩

theorem SecondBody.behind (h : SecondBody σ σ₁ σ') : Behind σ σ' :=
  ⟨h.since.extends', fun a ha => by rw [h.spine]; exact List.mem_cons_of_mem _ ha⟩

theorem LoopBody.behind (h : LoopBody σ σ') : Behind σ σ' :=
  ⟨h.since.extends', fun a ha => by
    rw [h.spine]
    exact List.mem_cons_of_mem _ (List.mem_cons_of_mem _ ha)⟩

theorem Extends.write_mem (e : Extends σ σ') {a : Block} {v : Value}
    (h : .write x v ∈ σ.record.script a) : .write x v ∈ σ'.record.script a := by
  obtain ⟨later, hlater⟩ := e.script a
  rw [hlater]
  exact List.mem_append_left _ h

theorem Written.behind (h : σ.Written x) (hb : Behind σ σ') : σ'.Written x := by
  obtain ⟨a, ha, v, hv⟩ := h
  exact ⟨a, hb.spine a ha, v, hb.extends'.write_mem hv⟩

/-- On every way to what follows `front` in the block, the variable has been written. -/
def Covers (ω : Plan) (b : Block) (front : List Event) (x : SymbolId) : Prop :=
  (∃ v, .write x v ∈ front) ∨ ∃ a ∈ ω.spine b, a ≠ b ∧ ∃ v, .write x v ∈ ω.record.script a

theorem Written.covers (h : σ.Written x) (hσ : σ.Sound) (e : Extends σ ω) :
    ω.Covers σ.current (σ.record.script σ.current) x := by
  obtain ⟨a, ha, v, hv⟩ := h
  by_cases hac : a = σ.current
  · exact .inl ⟨v, hac ▸ hv⟩
  · exact .inr ⟨a, by rw [e.spine hσ.used]; exact ha, hac, v, e.write_mem hv⟩

/-- What has been read so far is behind a write in the finished plan `ω`, and what has been written
has the type that the variable has there. -/
structure Neat (ω σ : Plan) : Prop where
  reads : ∀ {b x r front back}, σ.record.script b = front ++ .read x r :: back → ω.Covers b front x
  writes : ∀ {b x v}, .write x v ∈ σ.record.script b →
    ω.known.type? x = some (ω.builder.ty v)

/-- Some block raises a fault. -/
def Raises (ω : Plan) : Prop := ∃ q v, ω.terminator? q = some (.raise v)

/-- A fault of another type is passed on in the block. Control comes there only by way of a block that
has found out the type of a fault. -/
def Fenced (config : FaultConfig) (ω : Plan) (q : Block) : Prop :=
  ∃ sites pad selector typeId isOurs, LandingAt config ω sites pad selector typeId isOurs ∧
    ω.OneWay sites.cleanup sites.faulted ∧ q = sites.cleanup

/-- The function called is one that was known at the start, and gets as many integers as it has
parameters. If it may raise a fault the call stands at the end of a block, otherwise among the instructions
of one. -/
def Guarded (opened : SymbolTable) (ω : Plan) (v : Value) (callee : String) (arguments : List Value) :
    Prop :=
  (∀ u ∈ arguments, ω.builder.ty u = .int) ∧ ∃ id mayFault,
    opened.lookup? callee = some ⟨id, .function arguments.length mayFault⟩ ∧
      if mayFault then ∃ q normal unwind, ω.terminator? q = some (.invoke v normal unwind)
      else ∃ q, v ∈ (ω.builder.info q).insts

/-- What a part of lowering does towards the finished plan `ω`: it keeps to what `Neat` says, it raises
faults, which are those of the program, if and only if the truth value says so, and it is ready for the
faults that calls may raise. -/
structure Tidy (config : FaultConfig) (opened : SymbolTable) (ω σ σ' : Plan) (b : Bool) : Prop where
  neat : Neat ω σ → Neat ω σ'
  raised : ∀ {q v}, σ'.terminator? q = some (.raise v) →
    σ.terminator? q = some (.raise v) ∨
      b = true ∧ (ω.builder.valueInfo v).inst = .faultAlloc config.code config.typeId
  raises : b = true → ω.Raises
  resumed : ∀ {q v}, σ'.terminator? q = some (.resume v) →
    σ.terminator? q = some (.resume v) ∨ Fenced config ω q
  calls : ∀ {v callee arguments}, (σ'.builder.valueInfo v).inst = .call callee arguments →
    (σ.builder.valueInfo v).inst = .call callee arguments ∨ Guarded opened ω v callee arguments

theorem Tidy.trans (h₁ : Tidy config opened ω σ σ₁ b₁) (h₂ : Tidy config opened ω σ₁ σ₂ b₂) :
    Tidy config opened ω σ σ₂ (b₁ || b₂) where
  neat h := h₂.neat (h₁.neat h)
  raised hq := by
    rcases h₂.raised hq with hq | hb
    · exact (h₁.raised hq).imp_right fun hb => ⟨by rw [hb.1]; rfl, hb.2⟩
    · exact .inr ⟨by rw [hb.1, Bool.or_true], hb.2⟩
  raises hb := by
    rcases Bool.or_eq_true_iff.1 hb with hb | hb
    · exact h₁.raises hb
    · exact h₂.raises hb
  resumed hq := (h₂.resumed hq).elim h₁.resumed .inr
  calls hv := (h₂.calls hv).elim h₁.calls .inr

/-- Parts that raise nothing do not change what others raise. -/
theorem Tidy.then (h₁ : Tidy config opened ω σ σ₁ b) (h₂ : Tidy config opened ω σ₁ σ₂ false) :
    Tidy config opened ω σ σ₂ b := by
  have h := h₁.trans h₂
  rwa [Bool.or_false] at h

/-- Instructions behind some events neither read nor write. -/
theorem Neat.of_script (h : Neat ω σ) {c : Block} {later : List Event}
    (hlater : ∀ e ∈ later, ∃ v, e = .inst v) :
    (∀ {y r front back}, σ.record.script c ++ later = front ++ .read y r :: back →
      ω.Covers c front y) ∧
    ∀ {y v}, .write y v ∈ σ.record.script c ++ later → ω.known.type? y = some (ω.builder.ty v) := by
  constructor
  · intro y r front back hsplit
    have hnot : ∀ {r : Value}, .read y r ∉ later := fun hmem => by
      obtain ⟨v, hv⟩ := hlater _ hmem
      cases hv
    rcases List.append_eq_append_iff.1 hsplit with ⟨a, -, hb⟩ | ⟨a, ha, hb⟩
    · exact absurd (by rw [hb]; simp : Event.read y r ∈ later) hnot
    · cases a with
      | nil => exact absurd (by rw [List.nil_append] at hb; rw [← hb]; simp) (hnot (r := r))
      | cons first rest =>
        cases hb
        exact h.reads ha
  · intro y v hmem
    rcases List.mem_append.1 hmem with hmem | hmem
    · exact h.writes hmem
    · obtain ⟨u, hu⟩ := hlater _ hmem
      cases hu

theorem Silent.quiet (h : Silent σ σ') : Tidy config opened ω σ σ' false where
  neat hneat := by
    constructor
    · intro c y r front back hsplit
      obtain ⟨later, hscript, hlater⟩ := h.script c
      exact (hneat.of_script hlater).1 (hscript ▸ hsplit)
    · intro c y v hmem
      obtain ⟨later, hscript, hlater⟩ := h.script c
      exact (hneat.of_script hlater).2 (hscript ▸ hmem)
  raised hq := .inl (h.raised hq)
  raises := by simp
  resumed hq := .inl (h.resumed hq)
  calls hv := .inl (h.calls hv)

/-- Where variables are read and written in one block only, what happens there has to be looked at. -/
theorem SilentBut.tidy {c : Block} (h : SilentBut c σ σ')
    (hreads : Neat ω σ → ∀ {y r front back}, σ'.record.script c = front ++ .read y r :: back →
      ω.Covers c front y)
    (hwrites : Neat ω σ → ∀ {y v}, .write y v ∈ σ'.record.script c →
      ω.known.type? y = some (ω.builder.ty v)) : Tidy config opened ω σ σ' false where
  neat hneat := by
    constructor
    · intro a y r front back hsplit
      by_cases hac : a = c
      · exact hac ▸ hreads hneat (hac ▸ hsplit)
      · obtain ⟨later, hscript, hlater⟩ := h.script a hac
        exact (hneat.of_script hlater).1 (hscript ▸ hsplit)
    · intro a y v hmem
      by_cases hac : a = c
      · exact hwrites hneat (hac ▸ hmem)
      · obtain ⟨later, hscript, hlater⟩ := h.script a hac
        exact (hneat.of_script hlater).2 (hscript ▸ hmem)
  raised hq := .inl (h.raised hq)
  raises := by simp
  resumed hq := .inl (h.resumed hq)
  calls hv := .inl (h.calls hv)

/-- A variable may be read where it has been written on every way. -/
theorem tidy_read (hσ : σ.Ready) {v : Value} {d : Draft}
    (hread : (Drafting.read x σ.current).on σ.record.draft = (.ok v, d))
    (e : Extends (σ.read x v d) ω) (hx : σ.Written x) : Tidy config opened ω σ (σ.read x v d) false := by
  refine (silentBut_read hread).1.tidy (fun hneat {y r front back} hsplit => ?_)
    fun hneat {y u} hmem => ?_
  · rcases Recording.split_happen hsplit with ⟨back', hold⟩ | ⟨-, he, hfront⟩
    · exact hneat.reads hold
    · cases he
      rw [← hfront]
      exact hx.covers hσ.sound ((hσ.sound.read hread).2.1.trans e)
  · have hmem' : .write y u ∈ Recording.happen σ.record.script σ.current (.read x v) σ.current := hmem
    rw [Recording.happen_self] at hmem'
    exact hneat.writes (by simpa using hmem')

/-- A variable may be written with a value of its type. -/
theorem tidy_write {v : Value} (hty : ω.known.type? x = some (ω.builder.ty v)) :
    Tidy config opened ω σ (σ.write x v) false := by
  refine (silentBut_write x v).tidy (fun hneat {y r front back} hsplit => ?_)
    fun hneat {y u} hmem => ?_
  · rcases Recording.split_happen hsplit with ⟨back', hold⟩ | ⟨-, he, -⟩
    · exact hneat.reads hold
    · cases he
  · have hmem' : .write y u ∈ Recording.happen σ.record.script σ.current (.write x v) σ.current :=
      hmem
    rw [Recording.happen_self] at hmem'
    rcases List.mem_append.1 hmem' with hold | hnew
    · exact hneat.writes hold
    · cases List.mem_singleton.1 hnew
      exact hty

theorem tidy_declare (ty : Ty) : Tidy config opened ω σ (σ.declare x ty) false :=
  ⟨fun h => ⟨h.reads, h.writes⟩, .inl, by simp, .inl, .inl⟩

/-- What has been made of instructions keeps what has been read and written in order. -/
theorem Neat.of_happen {script : Block → List Event} {c : Block} {v : Value} (h : Neat ω σ)
    (hscript : σ'.record.script = Recording.happen script c (.inst v))
    (hold : σ.record.script = script) : Neat ω σ' := by
  subst hold
  constructor
  · intro a y r front back hsplit
    obtain ⟨later, hlater, hinst⟩ := script_happen σ.record.script c v a
    rw [hscript, hlater] at hsplit
    exact (h.of_script hinst).1 hsplit
  · intro a y u hmem
    obtain ⟨later, hlater, hinst⟩ := script_happen σ.record.script c v a
    rw [hscript, hlater] at hmem
    exact (h.of_script hinst).2 hmem

/-- A function may be called that raises no fault. -/
theorem tidy_call {callee : String} {arguments : List Value} {ty : Ty} {id : SymbolId}
    (htypes : ∀ u ∈ arguments, ω.builder.ty u = .int)
    (hname : opened.lookup? callee = some ⟨id, .function arguments.length false⟩) {q : Block}
    (hplaced : σ.next ∈ (ω.builder.info q).insts) :
    Tidy config opened ω σ (σ.emit (.call callee arguments) ty) false where
  neat h := h.of_happen (script_emit ..) rfl
  raised hq := .inl ((info_emit σ _ ty _).2.1 ▸ hq)
  raises := by simp
  resumed hq := .inl ((info_emit σ _ ty _).2.1 ▸ hq)
  calls {v _ _} hv := by
    rw [valueInfo_emit] at hv
    split at hv
    · next hindex =>
      obtain rfl : v = σ.next := Flow.Value.ext_index hindex
      cases hv
      exact .inr ⟨htypes, id, false, hname, q, hplaced⟩
    · exact .inl hv

/-- Any function may be called at the end of a block. -/
theorem tidy_invoke {callee : String} {arguments : List Value} {result : Ty} {normal unwind : Block}
    {id : SymbolId} (htypes : ∀ u ∈ arguments, ω.builder.ty u = .int)
    (hname : opened.lookup? callee = some ⟨id, .function arguments.length true⟩)
    (hends : ω.terminator? σ.current = some (.invoke ⟨σ.builder.valueCount⟩ normal unwind)) :
    Tidy config opened ω σ (σ.invoke callee arguments result normal unwind) false where
  neat h := h.of_happen (script_invoke ..) rfl
  raised hq := .inl ((terminator?_of_terminate
    (σ := σ.withCall callee arguments result) hq).resolve_left (by simp))
  raises := by simp
  resumed hq := .inl ((terminator?_of_terminate
    (σ := σ.withCall callee arguments result) hq).resolve_left (by simp))
  calls {v _ _} hv := by
    rw [valueInfo_invoke] at hv
    split at hv
    · next hindex =>
      obtain rfl : v = ⟨σ.builder.valueCount⟩ := Flow.Value.ext_index hindex
      cases hv
      exact .inr ⟨htypes, id, true, hname, _, _, _, hends⟩
    · exact .inl hv

/-- A fault may be passed on where control never comes. -/
theorem tidy_resume {v : Value} (h : Fenced config ω σ.current) :
    Tidy config opened ω σ (σ.terminate (.resume v)) false where
  neat h := ⟨h.reads, h.writes⟩
  raised hq := .inl ((terminator?_of_terminate hq).resolve_left (by simp))
  raises := by simp
  resumed hq := (terminator?_of_terminate hq).elim (fun h' => .inr (h'.1 ▸ h)) .inl
  calls {u _ _} hu := by
    rw [show (σ.terminate (.resume v)).builder.valueInfo u = _ from
      Builder.valueInfo_terminate ..] at hu
    exact .inl hu

/-! ## Expressions -/

/-- A value keeps its type. -/
theorem Has.ty (hσ : σ.Sound) {v : Value} {c : Block} (hv : σ.Has c v) (e : Extends σ σ') :
    σ'.builder.ty v = σ.builder.ty v := (e.frame (hσ.lt_of_has hv)).1

/-- What is no phi stays as it is. -/
theorem Sound.info_eq (hσ : σ.Sound) (e : Extends σ σ') {v : Value}
    (hlt : v.index < σ.builder.valueCount)
    (hv : ∀ incoming, (σ.builder.valueInfo v).inst ≠ .phi incoming) :
    σ'.builder.valueInfo v = σ.builder.valueInfo v := by
  refine e.info hlt ?_
  cases howner : σ.known.owner? v with
  | none => rfl
  | some x =>
    obtain ⟨-, -, -, -, -, incoming, hinst⟩ := hσ.record.coherent.owned howner
    exact absurd hinst (hv incoming)

theorem ty_emit (σ : Plan) (inst : Inst) (ty : Ty) : (σ.emit inst ty).builder.ty σ.next = ty := by
  show ((σ.emit inst ty).builder.valueInfo σ.next).ty = ty
  rw [valueInfo_emit, if_pos rfl]

theorem Coerced.ty {v v' : Value} {ty : Ty} (h : Coerced σ v ty v' σ') :
    σ'.builder.ty v' = ty := by
  cases h with
  | same h => exact h
  | toFloat _ h => exact (ty_emit ..).trans h.symm
  | toInt _ h => exact (ty_emit ..).trans h.symm

/-- A fault of the program may be raised. -/
theorem tidy_raise {σ₀ : Plan} {ty : Ty}
    (hσ : σ = (σ₀.emit (.faultAlloc config.code config.typeId) ty).terminate (.raise σ₀.next))
    (hω : (ω.builder.valueInfo σ₀.next).inst = .faultAlloc config.code config.typeId)
    (hraises : ω.Raises) : Tidy config opened ω σ₀ σ true where
  neat h := by
    subst hσ
    exact h.of_happen (script_emit ..) rfl
  raised {q v} hq := by
    rw [hσ] at hq
    rcases terminator?_of_terminate hq with ⟨-, heq⟩ | hq
    · cases heq
      exact .inr ⟨rfl, hω⟩
    · exact .inl ((info_emit σ₀ _ ty _).2.1 ▸ hq)
  raises _ := hraises
  resumed {q v} hq := by
    rw [hσ] at hq
    exact .inl ((info_emit σ₀ _ ty _).2.1 ▸ (terminator?_of_terminate hq).resolve_left (by simp))
  calls {v callee arguments} hv := by
    rw [hσ, show (Plan.terminate _ (.raise σ₀.next)).builder.valueInfo v = _ from
      Builder.valueInfo_terminate .., valueInfo_emit] at hv
    split at hv
    · cases hv
    · exact .inl hv

/-- A division raises a fault. -/
theorem Combined.tidy {op : InfixOp} {lhs rhs v : Value} (h : Combined config σ op lhs rhs b v σ')
    (hσ : σ.Ready) (hlhs : σ.Has σ.current lhs) (hrhs : σ.Has σ.current rhs) (e : Extends σ' ω) :
    Tidy config opened ω σ σ' b := by
  obtain ⟨-, hleft, hright, hresult⟩ := h
  have h₁ := hleft.gives hσ hlhs
  have h₂ := hright.gives h₁.ready (h₁.keeps hσ hrhs)
  rcases hresult.silent with ⟨hsilent, rfl⟩ | ⟨hdivided, rfl⟩
  · exact (hleft.silent.quiet.then hright.silent.quiet).then hsilent.quiet
  · obtain ⟨-, -, hstands⟩ := hdivided.stages h₂.ready (h₂.keeps h₁.ready h₁.has) h₂.has
    obtain ⟨zero, isZero, fault, hat, -⟩ := hstands e
    obtain ⟨σ₀, σ₁, hbefore, hraise, hbehind, hlt, hinst⟩ := hdivided.silent
    have hready := (hdivided.gives h₂.ready (h₂.keeps h₁.ready h₁.has) h₂.has).ready
    have hinfo := hready.sound.info_eq (v := σ₀.next) e hlt (by rw [hinst]; simp)
    exact (((hleft.silent.quiet.then hright.silent.quiet).then hbefore.quiet).trans
      (tidy_raise hraise (hinfo ▸ hinst) ⟨_, fault, hat.raises.terminator⟩)).then hbehind.quiet

/-- A call has a handler if the function called may raise a fault. -/
theorem Called.tidy {name : String} {arguments : List Value} {handled : Bool} {v : Value}
    (h : Called config σ name arguments handled v σ') (hσ : σ.Ready)
    (harguments : ∀ u ∈ arguments, σ.Has σ.current u) (e : Extends σ' ω)
    (htypes : ∀ u ∈ arguments, ω.builder.ty u = .int) {id : SymbolId}
    (hname : opened.lookup? name = some ⟨id, .function arguments.length handled⟩) :
    Tidy config opened ω σ σ' false := by
  cases h with
  | plain =>
    refine tidy_call htypes hname (q := σ.current) ?_
    have hinsts := (info_emit σ (.call name arguments) .int σ.current).2.2.2
    rw [if_pos ⟨rfl, hσ.sound.record.current⟩] at hinsts
    refine Array.mem_toList_iff.1 ((e.placed σ.current).subset ?_)
    rw [hinsts, Array.toList_push]
    exact List.mem_append_right _ (List.mem_singleton_self _)
  | handled h =>
    obtain ⟨-, -, -, hat⟩ := h.stages hσ harguments
    obtain ⟨pad, selector, typeId, isOurs, code, reported, finished, zero, hat⟩ := hat e
    have hv : v = σ.next := by
      cases h
      rfl
    obtain ⟨σ₁, _, hbefore, hcurrent, hbehind⟩ := h.silent
    have hopened : Opened σ _ 6 := hσ.newBlocks siteLabels
    have hnext : σ.next = (σ.newBlocks siteLabels).next :=
      congrArg Value.mk hopened.valueCount.symm
    have hcall := hat.calls.terminator
    rw [hv, hnext, ← hopened.current] at hcall
    have hfenced : Fenced config ω σ₁.current :=
      ⟨_, _, _, _, _, hat.landing, hat.toCleanup, hcurrent⟩
    exact ((((silent_newBlocks siteLabels σ).quiet.then (tidy_invoke htypes hname hcall)).then
      hbefore.quiet).then (tidy_resume hfenced)).then hbehind.quiet

/-- Arguments are integers. -/
theorem Values.ints {ts : List Tree} {vs : List Value} (h : Values config symbols (.args ts) σ b vs σ')
    (hσ : σ.Ready) : ∀ v ∈ vs, σ'.builder.ty v = .int := by
  generalize hpart : ValuePart.args ts = part at h
  induction h generalizing ts with
  | nil => simp
  | @cons t ts σ b₁ v σ₁ v' σ₂ b₂ vs σ' ht hcoerced hts _ ih =>
    cases hpart
    have h₁ := ht.gives hσ
    have h₂ := hcoerced.gives h₁.1 (h₁.2.2 v (List.mem_singleton_self v))
    have e := (hts.gives h₂.ready).2.1.since.extends'
    refine List.forall_mem_cons.2 ⟨?_, ih h₂.ready rfl⟩
    rw [h₂.has.ty h₂.ready.sound e]
    exact hcoerced.ty
  | _ => cases hpart

/-- Expressions read variables that are in scope. -/
theorem Values.tidy {part : ValuePart} {vs : List Value} (h : Values config symbols part σ b vs σ')
    (hσ : σ.Ready) (e : Extends σ' ω)
    (hwritten : ∀ {name x}, symbols.findVariable name = .ok x → σ.Written x)
    (hfunctions : ∀ {name s}, symbols.lookup? name = some s → s.binding ≠ .var →
      opened.lookup? name = some s) : Tidy config opened ω σ σ' b := by
  induction h with
  | integer => exact (silent_emit (by simp)).quiet
  | floating => exact (silent_emit (by simp)).quiet
  | ident hfind hread => exact tidy_read hσ hread e (hwritten hfind)
  | infixOp hl hr hcombined ih₁ ih₂ =>
    obtain ⟨hready₁, hadvance₁, hl⟩ := hl.gives hσ
    obtain ⟨hready₂, hadvance₂, hr⟩ := hr.gives hready₁
    have hlhs := hadvance₂.has hready₁.sound (hl _ (List.mem_singleton_self _))
    have e₂ := (hcombined.gives hready₂ hlhs (hr _ (by simp))).advance.since.extends'.trans e
    exact ((ih₁ hσ (hadvance₂.since.extends'.trans e₂) hwritten).trans (ih₂ hready₁ e₂
      fun hx => (hwritten hx).behind hadvance₁.behind)).trans
        (hcombined.tidy hready₂ hlhs (hr _ (by simp)) e)
  | negate hoperand hnegated ih =>
    obtain ⟨hready, -, hv⟩ := hoperand.gives hσ
    have e₁ := (hnegated.gives hready (hv _ (by simp))).advance.since.extends'.trans e
    exact (ih hσ e₁ hwritten).then hnegated.silent.quiet
  | pi => exact (silent_emit (by simp)).quiet
  | call hfind hcount harguments hcalled ih =>
    obtain ⟨hready, -, hvs⟩ := harguments.gives hσ
    have e₁ := (hcalled.gives hready hvs).advance.since.extends'.trans e
    have hname := hfunctions (SymbolTable.findFunction_ok hfind) (by simp)
    rw [← hcount, ← harguments.length_args] at hname
    have htypes : ∀ u ∈ _, ω.builder.ty u = .int := fun u hu =>
      ((hvs u hu).ty hready.sound e₁).trans (harguments.ints hσ u hu)
    exact (ih hσ e₁ hwritten).then (hcalled.tidy hready hvs e htypes hname)
  | nil => exact (silent_rfl _).quiet
  | cons ht hcoerced hts ih₁ ih₂ =>
    obtain ⟨hready₁, hadvance₁, hv⟩ := ht.gives hσ
    have h₂ := hcoerced.gives hready₁ (hv _ (by simp))
    obtain ⟨-, hadvance₃, -⟩ := hts.gives h₂.ready
    have e₂ := hadvance₃.since.extends'.trans e
    have h₁ := (ih₁ hσ (h₂.advance.since.extends'.trans e₂) hwritten).then hcoerced.silent.quiet
    exact h₁.trans (ih₂ h₂.ready e fun hx =>
      (hwritten hx).behind (hadvance₁.behind.trans h₂.advance.behind))

/-- Expressions declare no variables. -/
theorem Values.type? {part : ValuePart} {vs : List Value} (h : Values config symbols part σ b vs σ')
    (x : SymbolId) : σ'.known.type? x = σ.known.type? x := by
  induction h with
  | integer => rfl
  | floating => rfl
  | ident _ hread => exact (silentBut_read hread).1.type x
  | infixOp _ _ hcombined ih₁ ih₂ => rw [hcombined.type, ih₂, ih₁]
  | negate _ hnegated ih => rw [hnegated.silent.type, ih]
  | pi => rfl
  | call _ _ _ hcalled ih => rw [hcalled.type, ih]
  | nil => rfl
  | cons _ hcoerced _ ih₁ ih₂ => rw [ih₂, hcoerced.silent.type, ih₁]

/-! ## Scopes -/

/-- What lowering knows about the names in scope: the functions are those of the table `opened`, the
variables have been written on every way, and symbols that are given later have no type yet. -/
structure Knows (opened : SymbolTable) (σ : Plan) (t : SymbolTable) : Prop where
  orderly : t.Orderly
  written : ∀ e ∈ t.entries, e.2.binding = .var → σ.Written e.2.id
  undeclared : ∀ x : SymbolId, t.fresh ≤ x.number → σ.known.type? x = none
  functions : ∀ {name s}, t.lookup? name = some s → s.binding ≠ .var → opened.lookup? name = some s

theorem Knows.findVariable (h : σ.Knows opened symbols) {name : String}
    (hx : symbols.findVariable name = .ok x) : σ.Written x :=
  h.written _ (SymbolTable.mem_entries_of_lookup? (SymbolTable.findVariable_ok hx)) rfl

theorem Knows.behind (h : σ.Knows opened symbols) (hb : Behind σ σ')
    (htype : ∀ x, σ'.known.type? x = σ.known.type? x) : σ'.Knows opened symbols where
  orderly := h.orderly
  written e he hvar := (h.written e he hvar).behind hb
  undeclared x hx := (htype x).trans (h.undeclared x hx)
  functions := h.functions

theorem Knows.pushScope (h : σ.Knows opened symbols) : σ.Knows opened symbols.pushScope :=
  ⟨h.orderly.pushScope, h.written, h.undeclared, h.functions⟩

/-- A name is defined for a variable that is written. -/
theorem Knows.define (h : σ.Knows opened symbols) {name : String}
    (hdefine : symbols.define name .var = .ok (x, symbols')) (hb : Behind σ σ') (hx : σ'.Written x)
    (htype : ∀ y, y ≠ x → σ'.known.type? y = σ.known.type? y) : σ'.Knows opened symbols' where
  orderly := h.orderly.define hdefine
  written e he hvar := by
    rw [SymbolTable.entries_define hdefine] at he
    rcases List.mem_cons.1 he with rfl | he
    · exact hx
    · exact (h.written e he hvar).behind hb
  undeclared y hy := by
    obtain ⟨rfl, rfl⟩ := SymbolTable.define_ok hdefine
    have hlt : symbols.fresh < y.number := hy
    refine (htype y ?_).trans (h.undeclared y (Nat.le_of_lt hlt))
    rintro rfl
    exact Nat.lt_irrefl _ hlt
  functions {other s} hlookup hs := by
    rw [SymbolTable.lookup?_eq, SymbolTable.entries_define hdefine, List.lookup_cons] at hlookup
    split at hlookup
    · cases hlookup
      exact absurd rfl hs
    · exact h.functions ((SymbolTable.lookup?_eq ..).trans hlookup) hs

/-- After a body the names are those from before it. -/
theorem Knows.popScope {symbols₀ symbols₁ symbols₂ : SymbolTable} (h : σ.Knows opened symbols)
    (hscopes : symbols₀.scopes = symbols.scopes) (hb : Behind σ σ') (hinner : σ₁.Knows opened symbols₁)
    (hgrown : SymbolTable.Grown symbols₀.pushScope symbols₁)
    (hpop : symbols₁.popScope = .ok symbols₂)
    (htype : ∀ x, σ'.known.type? x = σ₁.known.type? x) : σ'.Knows opened symbols₂ where
  orderly := hinner.orderly.popped hgrown hpop
  written e he hvar := by
    have hentries : symbols₂.entries = symbols.entries := by
      unfold SymbolTable.entries
      rw [(hgrown.popped hpop).1, hscopes]
    exact (h.written e (hentries ▸ he) hvar).behind hb
  undeclared x hx := by
    rw [(hgrown.popped hpop).2] at hx
    exact (htype x).trans (hinner.undeclared x hx)
  functions {name s} hlookup := by
    have hsame : symbols₂.lookup? name = symbols.lookup? name := by
      unfold SymbolTable.lookup?
      rw [(hgrown.popped hpop).1, hscopes]
    exact h.functions (hsame ▸ hlookup)

theorem type?_declare_self (hx : σ.known.type? x = none) (ty : Ty) :
    (σ.declare x ty).known.type? x = some ty := by
  have h := Variables.type?_declare σ.known x ty
  rwa [hx] at h

theorem type?_declare_of_ne {y : SymbolId} (hy : y ≠ x) (ty : Ty) :
    (σ.declare x ty).known.type? y = σ.known.type? y := by
  show (σ.known.types.insertIfNew x ty)[y]? = σ.known.types[y]?
  rw [Std.TreeMap.getElem?_insertIfNew, if_neg]
  rintro ⟨hcmp, -⟩
  exact hy (Std.LawfulEqOrd.eq_of_compare hcmp).symm

theorem written_write (hσ : σ.Sound) (x : SymbolId) (v : Value) : (σ.write x v).Written x :=
  ⟨σ.current, hσ.own hσ.used, v, by
    show _ ∈ Recording.happen σ.record.script σ.current (.write x v) σ.current
    rw [Recording.happen_self]
    simp⟩

/-- A new variable is declared and written with a value of its type. -/
theorem Knows.introduce {name : String} (h : σ.Knows opened symbols) (hσ : σ.Ready)
    (hdefine : symbols.define name .var = .ok (x, symbols')) {v : Value} (hv : σ.Has σ.current v) :
    ((σ.declare x (σ.builder.ty v)).write x v).Knows opened symbols' ∧
      ∀ {ω}, Extends ((σ.declare x (σ.builder.ty v)).write x v) ω →
        Tidy config opened ω σ ((σ.declare x (σ.builder.ty v)).write x v) false := by
  have hfresh : σ.known.type? x = none := by
    obtain ⟨rfl, -⟩ := SymbolTable.define_ok hdefine
    exact h.undeclared _ (Nat.le_refl _)
  have hdeclare := hσ.sound.declare x (σ.builder.ty v)
  obtain ⟨hready, hadvance⟩ := advance_introduce hσ x (σ.builder.ty v) hv
  refine ⟨h.define hdefine hadvance.behind (written_write hdeclare x v)
    fun y hy => type?_declare_of_ne hy _, fun {ω} e => (tidy_declare _).then (tidy_write ?_)⟩
  rw [e.type (show ((σ.declare x _).write x v).known.type? x = _ from type?_declare_self hfresh _),
    (hv.ty hσ.sound (hadvance.since.extends'.trans e))]

/-- The variable of a loop is declared and set to 0. -/
theorem Knows.countFrom {name : String} (h : σ.Knows opened symbols) (hσ : σ.Ready)
    (hdefine : symbols.define name .var = .ok (x, symbols')) :
    (countFrom σ x).Knows opened symbols' ∧ (countFrom σ x).known.type? x = some .int ∧
      ∀ {ω}, Extends (countFrom σ x) ω → Tidy config opened ω σ (countFrom σ x) false := by
  have hfresh : σ.known.type? x = none := by
    obtain ⟨rfl, -⟩ := SymbolTable.define_ok hdefine
    exact h.undeclared _ (Nat.le_refl _)
  have hzero := gives_emit (hσ.declare x .int) (.intConst 0) .int (by simp [Inst.operands])
  have htype : (Plan.countFrom σ x).known.type? x = some .int := type?_declare_self hfresh _
  refine ⟨h.define hdefine (advance_countFrom hσ x).2.behind (written_write hzero.ready.sound x _)
    fun y hy => type?_declare_of_ne hy _, htype, fun {ω} e => ?_⟩
  refine ((tidy_declare _).then (silent_emit (by simp)).quiet).then (tidy_write ?_)
  rw [e.type htype]
  have hty := hzero.has.ty hzero.ready.sound ((extends_write _ x _).trans e)
  exact congrArg some (hty.trans (ty_emit ..)).symm

/-! ## Loops -/

/-- Where something has been written lowering has been. -/
theorem Sound.ne_of_write (hσ : σ.Sound) {a c : Block} {v : Value}
    (hv : .write x v ∈ σ.record.script a) (hc : σ.spine c = []) : a ≠ c := by
  rintro rfl
  rw [(hσ.begun hc).1] at hv
  cases hv

/-- The first event of a block is its only read. -/
theorem read_first {y : SymbolId} {v r : Value} {rest front back : List Event}
    (h : .read x v :: rest = front ++ .read y r :: back) (hrest : ∀ y r, .read y r ∉ rest) :
    front = [] ∧ y = x := by
  cases front with
  | nil =>
    cases h
    exact ⟨rfl, rfl⟩
  | cons first front =>
    obtain ⟨-, htail⟩ := List.cons.inj h
    exact absurd (by rw [htail]; simp) (hrest y r)

/-- The variable of a loop has been written when the header is come to. -/
theorem LoopHead.tidy {limit : Value} (h : LoopHead σ x limit σ') (hσ : σ.Ready)
    (hlimit : σ.Has σ.current limit) (hx : σ.Written x) (e : Extends σ' ω) :
    Tidy config opened ω σ σ' false := by
  obtain ⟨hbody, -, hhead⟩ := h.stages hσ hlimit
  obtain ⟨v, test, hat, -⟩ := hhead e
  obtain ⟨later, hlater⟩ := e.script (σ.block 0)
  rw [hat.branches.script] at hlater
  have hspine : ω.spine (σ.block 0) = σ.block 0 :: σ.spine σ.current := by
    have hused : σ'.spine (σ.block 0) ≠ [] := by simp [hbody.header.2.2.1]
    rw [e.spine hused, hbody.header.2.2.1]
  refine h.silentBut.tidy (fun _ {y r front back} hsplit => ?_) fun _ {y u} hmem => ?_
  · rw [hsplit, List.append_assoc, List.cons_append] at hlater
    obtain ⟨rfl, rfl⟩ := read_first hlater (by simp)
    obtain ⟨a, ha, u, hu⟩ := hx
    refine .inr ⟨a, ?_, hσ.sound.ne_of_write hu (hσ.sound.fresh (Nat.le_refl _)), u,
      (hbody.since.extends'.trans e).write_mem hu⟩
    rw [hspine]
    exact List.mem_cons_of_mem _ ha
  · have hmem' : Event.write y u ∈ [Event.read x v, .inst test] := by
      rw [hlater]
      exact List.mem_append_left _ hmem
    simp at hmem'

/-- Behind the body of a loop its variable is read and written. -/
theorem LoopTail.tidy {σ₀ : Plan} (h : LoopTail σ x σ₁ σ') (hbody : LoopBody σ σ₀) (hσ : σ.Ready)
    (hready : σ₁.Ready) (hadvance : Advance σ₀ σ₁) (hx : σ₁.Written x)
    (htype : σ₁.known.type? x = some .int) (hω : ω.Sound) (e : Extends σ' ω) :
    Tidy config opened ω σ₁ σ' false := by
  obtain ⟨-, -, e₁, -, -, htail⟩ := h.stages hbody hσ hready hadvance
  obtain ⟨v, one, next, hat, -⟩ := htail e
  obtain ⟨later, hlater⟩ := e.script (σ.block 2)
  rw [hat.returns.script] at hlater
  have hspine : ω.spine (σ.block 2) = σ.block 2 :: σ₁.spine σ₁.current := by
    have hused : ω.spine (σ.block 2) ≠ [] := fun hnil => by
      have := (hω.begun hnil).1
      rw [hat.returns.script] at this
      cases this
    rw [hω.chain hat.toLast.isSealed hat.toLast.preds hused, (e₁.trans e).spine hready.sound.used]
  refine h.silentBut.tidy (fun _ {y r front back} hsplit => ?_) fun _ {y u} hmem => ?_
  · rw [hsplit, List.append_assoc, List.cons_append] at hlater
    obtain ⟨rfl, rfl⟩ := read_first hlater (by simp)
    obtain ⟨a, ha, u, hu⟩ := hx
    have hnil := (hbody.bodyEnd.since hbody.ready.sound hadvance.since).spine
    refine .inr ⟨a, ?_, hready.sound.ne_of_write hu hnil, u, (e₁.trans e).write_mem hu⟩
    rw [hspine]
    exact List.mem_cons_of_mem _ ha
  · have hmem' : Event.write y u ∈ [Event.read x v, .inst one, .inst next, .write x next] := by
      rw [hlater]
      exact List.mem_append_left _ hmem
    simp only [List.mem_cons, reduceCtorEq, Event.write.injEq, List.not_mem_nil, or_false,
      false_or] at hmem'
    obtain ⟨rfl, rfl⟩ := hmem'
    rw [(e₁.trans e).type htype]
    exact congrArg some (congrArg Flow.ValueInfo.ty hat.counts.info).symm

/-! ## Statements -/

/-- What holds when statements have been lowered. -/
structure Kept (config : FaultConfig) (opened : SymbolTable) (σ : Plan) (t : SymbolTable) (σ' : Plan)
    (t' : SymbolTable) (b : Bool) : Prop where
  grown : SymbolTable.Grown t t'
  knows : σ'.Knows opened t'
  tidy : ∀ {ω}, ω.Sound → Extends σ' ω → Tidy config opened ω σ σ' b

/-- Statements keep to the scopes. -/
theorem Statements.kept {part : StatementPart} {r : Option Value}
    (h : Statements config part symbols σ b r symbols' σ') (hσ : σ.Ready) (hk : σ.Knows opened symbols) :
    Kept config opened σ symbols σ' symbols' b := by
  induction h with
  | letVar hvalue hdefine =>
    have h := hvalue.givesOne hσ
    obtain ⟨hk', htidy⟩ := (hk.behind h.advance.behind hvalue.type?).introduce h.ready hdefine h.has
    refine ⟨.define hdefine, hk', fun hω e => ?_⟩
    have e₁ := (advance_introduce h.ready _ _ h.has).2.behind.extends'.trans e
    exact (hvalue.tidy hσ e₁ hk.findVariable hk.functions).then (htidy e)
  | @setVar _ _ _ _ _ _ _ _ x _ v' σ₂ hvalue _ htype hcoerced =>
    have h := hvalue.givesOne hσ
    have h' := hcoerced.gives h.ready h.has
    have hwrite := advance_write h'.ready x v'
    refine ⟨.rfl' _, hk.behind (h.advance.behind.trans (h'.advance.behind.trans hwrite.behind))
      fun x => (hcoerced.silent.type x).trans (hvalue.type? x), fun hω e => ?_⟩
    have e₂ := hwrite.behind.extends'.trans e
    have e₁ := h'.advance.behind.extends'.trans e₂
    refine ((hvalue.tidy hσ e₁ hk.findVariable hk.functions).then hcoerced.silent.quiet).then (tidy_write ?_)
    rw [e₁.type htype, h'.has.ty h'.ready.sound e₂, hcoerced.ty]
  | giveBack hvalue hcoerced hreturned =>
    have h := hvalue.givesOne hσ
    have h' := hcoerced.gives h.ready h.has
    have hb := h'.advance.behind.trans (hreturned.advance h'.ready h'.has).2.behind
    refine ⟨.rfl' _, hk.behind (h.advance.behind.trans hb) fun x => (hreturned.silent.type x).trans
      ((hcoerced.silent.type x).trans (hvalue.type? x)), fun hω e => ?_⟩
    have hvalue := hvalue.tidy hσ (hb.extends'.trans e) hk.findVariable hk.functions
    exact (hvalue.then hcoerced.silent.quiet).then hreturned.silent.quiet
  | ifElse hvalue htested hsplit hthen hpop₁ helse hpop₂ hjoined ih₁ ih₂ =>
    have h := hvalue.givesOne hσ
    have h' := htested.gives h.ready h.has
    have hk₂ := hk.behind (h.advance.behind.trans h'.advance.behind) fun x =>
      (htested.silent.type x).trans (hvalue.type? x)
    have hfirst := hsplit.firstBody h'.ready h'.has
    obtain ⟨hready₁, hadvance₁, -⟩ := hthen.advance hfirst.ready
    have hk₃ := ih₁ hfirst.ready (hk₂.behind hfirst.behind hsplit.silent.type).pushScope
    have hsecond := hfirst.secondBody h'.ready hready₁ hadvance₁
    obtain ⟨hready₂, hadvance₂, -⟩ := helse.advance hsecond.ready
    have hk₄ := hk₂.popScope rfl hsecond.behind hk₃.knows hk₃.grown hpop₁ (silent_switch _ _).type
    have hk₅ := ih₂ hsecond.ready hk₄.pushScope
    have hspine : ∀ a ∈ _, a ∈ _ := fun a ha =>
      hadvance₁.spine a (hfirst.spine ▸ List.mem_cons_of_mem _ ha)
    obtain ⟨-, hadvance, ejoined, -⟩ := hsecond.joined hready₁.sound hspine hready₂ hadvance₂ hjoined
    refine ⟨(hk₃.grown.popScope hpop₁).trans (hk₅.grown.popScope hpop₂), hk₂.popScope
      (hk₃.grown.popped hpop₁).1 hadvance.behind hk₅.knows hk₅.grown hpop₂ hjoined.silent.type,
      fun hω e => ?_⟩
    have e₅ := ejoined.trans e
    have e₄ := hadvance₂.behind.extends'.trans e₅
    have e₃ := hsecond.extends'.trans e₄
    have e₂ := hfirst.behind.extends'.trans (hadvance₁.behind.extends'.trans e₃)
    have htest := (hvalue.tidy hσ (h'.advance.behind.extends'.trans e₂) hk.findVariable hk.functions).then
      htested.silent.quiet
    have hthen := (htest.then hsplit.silent.quiet).trans (hk₃.tidy hω e₃)
    exact ((hthen.then (silent_switch _ _).quiet).trans (hk₅.tidy hω e₅)).then hjoined.silent.quiet
  | forLoop hvalue hcoerced hdefine hhead hbody hpop₁ htail hpop₂ ih =>
    have h := hvalue.givesOne hσ
    have h' := hcoerced.gives h.ready h.has
    have hk₂ := hk.behind (h.advance.behind.trans h'.advance.behind) fun x =>
      (hcoerced.silent.type x).trans (hvalue.type? x)
    obtain ⟨hready₃, hadvance₃⟩ := advance_countFrom h'.ready _
    have hlimit := hadvance₃.has h'.ready.sound h'.has
    obtain ⟨hk₃, htype, hcount⟩ := hk₂.pushScope.countFrom h'.ready hdefine
    have hloop := hhead.loopBody hready₃ hlimit
    obtain ⟨hready₄, hadvance₄, -⟩ := hbody.advance hloop.ready
    have hk₄ := ih hloop.ready (hk₃.behind hloop.behind hhead.silentBut.type).pushScope
    obtain ⟨-, hadvance, etail, -⟩ := htail.stages hloop hready₃ hready₄ hadvance₄
    have hk₅ := hk₃.popScope rfl hadvance.behind hk₄.knows hk₄.grown hpop₁ htail.silentBut.type
    have hgrown := (SymbolTable.Grown.define hdefine).trans (hk₄.grown.popScope hpop₁)
    refine ⟨hgrown.popScope hpop₂, hk₂.popScope rfl (hadvance₃.behind.trans hadvance.behind) hk₅
      hgrown hpop₂ fun _ => rfl, fun hω e => ?_⟩
    have e₄ := etail.trans e
    have e₃ := hadvance₄.behind.extends'.trans e₄
    have e₂ := hloop.behind.extends'.trans e₃
    have e₁ := h'.advance.behind.extends'.trans (hadvance₃.behind.extends'.trans e₂)
    have hx := (hk₃.written _ (SymbolTable.entries_define hdefine ▸ List.mem_cons_self) rfl)
    have hbehind := hloop.behind.trans hadvance₄.behind
    have hvalue := hvalue.tidy hσ e₁ hk.findVariable hk.functions
    have hlimit' := (hvalue.then hcoerced.silent.quiet).then (hcount e₂)
    exact ((hlimit'.then (hhead.tidy hready₃ hlimit hx e₃)).trans (hk₄.tidy hω e₄)).then
      (htail.tidy hloop hready₃ hready₄ hadvance₄ (hx.behind hbehind)
        (hbehind.extends'.type htype) hω e)
  | expression hvalue =>
    exact ⟨.rfl' _, hk.behind (hvalue.givesOne hσ).advance.behind hvalue.type?,
      fun hω e => hvalue.tidy hσ e hk.findVariable hk.functions⟩
  | nil => exact ⟨.rfl' _, hk, fun _ _ => (silent_rfl _).quiet⟩
  | cons hfirst hrest ih₁ ih₂ =>
    have hready := (hfirst.advance hσ).1
    have h₁ := ih₁ hσ hk
    have h₂ := ih₂ hready h₁.knows
    refine ⟨h₁.grown.trans h₂.grown, h₂.knows, fun hω e => ?_⟩
    exact (h₁.tidy hω ((hrest.advance hready).2.1.behind.extends'.trans e)).trans (h₂.tidy hω e)

end Plan

end Abacus.Lowering
