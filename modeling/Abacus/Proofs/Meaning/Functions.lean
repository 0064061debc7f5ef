import Abacus.Proofs.Lowering.Linking
import Abacus.Proofs.Meaning.Statements

/-!
# Following functions

A call of a function that has been lowered comes to what the evaluation of its source text comes to.

* `Frame.value?_enter` — a new activation has the arguments as its parameters;
* `Opens.follows`, `Parameters.follows` — it comes to where the parameters have become variables;
* `Ended.closes` — at the end of the body it gives back the value of the body, or 0;
* `Made.answers` — from its first frame on it comes to the answer.
-/

namespace Abacus.Machine.Frame

open Abacus.Flow (Function Value)

/-- What a parameter among some instructions is assigned. -/
def enterInst (f : Function) (arguments : List Scalar) (values : Array (Option Scalar)) (v : Value) :
    Array (Option Scalar) :=
  match f.inst v with
  | .param index => values.setIfInBounds v.index arguments[index]?
  | _ => values

variable {f : Function} {arguments : List Scalar} {v : Value} {i : Nat}

theorem enter_eq (h : arguments.length = f.params.length) : enter f arguments = .ok
    ⟨f, Function.entry, 0, (f.block Function.entry).insts.toList.foldl (enterInst f arguments)
      (Array.replicate f.values.size none), none, none⟩ := by
  unfold enter
  rw [if_pos h, ← Array.foldl_toList]
  rfl

theorem size_enterInst (values : Array (Option Scalar)) (v : Value) :
    (enterInst f arguments values v).size = values.size := by
  unfold enterInst
  split <;> simp

theorem size_enterInsts (vs : List Value) (values : Array (Option Scalar)) :
    (vs.foldl (enterInst f arguments) values).size = values.size := by
  induction vs generalizing values with
  | nil => rfl
  | cons u vs ih => exact (ih _).trans (size_enterInst values u)

/-- A parameter holds its argument once it has been assigned, and keeps it. -/
theorem get?_enterInsts (hinst : f.inst v = .param i) (vs : List Value)
    {values : Array (Option Scalar)} (hlt : v.index < values.size)
    (hv : v ∈ vs ∨ values[v.index]? = some arguments[i]?) :
    (vs.foldl (enterInst f arguments) values)[v.index]? = some arguments[i]? := by
  induction vs generalizing values with
  | nil => exact hv.resolve_left (by simp)
  | cons u vs ih =>
    refine ih ((size_enterInst values u).symm ▸ hlt) ?_
    by_cases hu : u = v
    · right
      rw [hu, enterInst, hinst, Array.getElem?_setIfInBounds_self, if_pos hlt]
    · refine hv.imp (fun hmem => (List.mem_cons.1 hmem).resolve_left (Ne.symm hu)) fun hheld => ?_
      have hne : u.index ≠ v.index := fun he => hu (Flow.Value.ext_index he)
      unfold enterInst
      split
      · rw [Array.getElem?_setIfInBounds_ne hne]
        exact hheld
      · exact hheld

/-- A new activation stands at the entry, and has the arguments as its parameters. -/
structure Entered (f : Function) (arguments : List Scalar) (frame : Frame) : Prop where
  function : frame.function = f
  waiting : frame.waiting = none
  size : frame.values.size = f.values.size
  block : frame.block = Function.entry
  next : frame.next = 0
  params : ∀ {v i}, f.inst v = .param i → v ∈ (f.block Function.entry).insts →
    v.index < f.values.size → frame.value? v = arguments[i]?

theorem enter_ok (h : arguments.length = f.params.length) :
    ∃ frame, enter f arguments = .ok frame ∧ Entered f arguments frame := by
  refine ⟨_, enter_eq h, rfl, rfl, ?_, rfl, rfl, ?_⟩
  · dsimp only
    rw [size_enterInsts, Array.size_replicate]
  · intro v i hinst hv hlt
    let values : Array (Option Scalar) := Array.replicate f.values.size none
    have hsize : v.index < values.size := by rwa [Array.size_replicate]
    exact congrArg Option.join (get?_enterInsts hinst _ hsize (.inl (Array.mem_toList_iff.2 hv)))

end Abacus.Machine.Frame

namespace Abacus.Meaning.Definition

/-- What control that reaches the end of a body gives back, if the body has a value. -/
def result? (d : Definition) (last? : Option Number) : Option Int64 :=
  if d.givesLast then last?.map Number.toInt else none

theorem getD_result? (d : Definition) (last? : Option Number) : (d.result? last?).getD 0 =
    if d.givesLast then (last?.map Number.toInt).getD 0 else 0 := by
  unfold result?
  split <;> rfl

end Abacus.Meaning.Definition

namespace Abacus.Lowering.Plan

open Abacus.Flow (Value Block Ty Inst Terminator Builder Function)
open Abacus.Machine
open Abacus.Meaning

variable {S : Setting} {config : FaultConfig} {opened symbols symbols' : SymbolTable} {ω σ σ' : Plan}
  {ctx : Context} {depth : Nat} {frame inner : Frame} {w : World} {b : Bool} {r : Option Value}
  {name : String} {arity : Nat} {arguments : List Int64}

/-! ## Parameters -/

/-- What has been opened has its parameters and nothing else. -/
structure HasParams (σ : Plan) (arity : Nat) : Prop where
  script : σ.record.script σ.current = (List.range arity).map (Event.inst ⟨·⟩)
  info : ∀ i < arity, σ.builder.valueInfo ⟨i⟩ = ⟨.int, .param i, Function.entry⟩

theorem Opens.hasParams (h : Opens name arity σ) : HasParams σ arity := by
  have hbegun := h.begun
  obtain ⟨hseal⟩ := h
  have hstart := sound_start name (List.replicate arity .int) .int
  obtain ⟨-, e, -⟩ := hstart.sealBlock (b := Function.entry) hstart.record.entry
    (fun q hq => by rw [hstart.start.2] at hq; cases hq) hseal
  constructor
  case script =>
    rw [hbegun.current]
    show (List.range (List.replicate arity Ty.int).length).map _ = _
    rw [List.length_replicate]
  case info =>
    intro i hi
    have hinfo : (start name (List.replicate arity .int) .int).builder.valueInfo ⟨i⟩ =
        ⟨.int, .param i, Function.entry⟩ := by
      show (Builder.paramValues (List.replicate arity Ty.int)).getD i default = _
      simp [Builder.paramValues, Array.getD_eq_getD_getElem?, hi]
    have hlt := (hstart.of_listed (has_param name hi).2).1
    rw [hstart.info_eq e hlt (by simp [hinfo]), hinfo]

/-- No phi stands in the entry, since control comes there without having written anything. -/
theorem Whole.entry_phis (hω : ω.Whole) : (ω.builder.info Function.entry).phis = [] := by
  by_contra hne
  obtain ⟨phi, hphi⟩ := List.exists_mem_of_ne_nil _ hne
  obtain ⟨x, howner⟩ := Option.ne_none_iff_exists'.1 (hω.sound.owned hphi)
  have hneeds := hω.sound.record.needs howner
  rw [(hω.sound.record.phis hphi).2] at hneeds
  obtain ⟨a, ha, -⟩ := hneeds.written hω.sound.record hω.complete .entry
  cases ha

/-- The first instructions of the entry are the parameters. -/
theorem HasParams.places (h : HasParams σ arity) (hσ : Begun σ arity) (e : Extends σ ω) {i : Nat}
    (hi : i < arity) : (List.range i).map (Event.inst ⟨·⟩) ++ [.inst ⟨i⟩] <+: ω.record.script Function.entry ∧
      (ω.builder.info Function.entry).insts[i]? = some ⟨i⟩ ∧
      ω.builder.valueInfo ⟨i⟩ = ⟨.int, .param i, Function.entry⟩ ∧ i < ω.builder.valueCount := by
  have hready := hσ.ready
  have hlt := hready.sound.lt_of_has (hσ.params i hi)
  refine ⟨?_, ?_, ?_, Nat.lt_of_lt_of_le hlt e.valueCount⟩
  · obtain ⟨later, hlater⟩ := e.script Function.entry
    have hscript := h.script
    rw [hσ.current] at hscript
    rw [hlater, hscript]
    refine List.IsPrefix.trans ?_ (List.prefix_append ..)
    have hprefix : List.range (i + 1) <+: List.range arity := by
      rw [List.prefix_iff_eq_take, List.length_range, List.take_range, Nat.min_eq_left hi]
    rw [List.range_succ] at hprefix
    simpa using hprefix.map (Event.inst ⟨·⟩)
  · have hinsts := hready.sound.insts_open hready.isOpen
    rw [h.script, hσ.current] at hinsts
    have hget : (σ.builder.info Function.entry).insts.toList[i]? = some ⟨i⟩ := by
      rw [← hinsts]
      simp [instsOf, List.filterMap_map, Event.inst?, Function.comp_def, hi]
    obtain ⟨rest, hrest⟩ := e.placed Function.entry
    obtain ⟨hlength, -⟩ := List.getElem?_eq_some_iff.1 hget
    rw [← Array.getElem?_toList, ← hrest, List.getElem?_append_left hlength, hget]
  · rw [hready.sound.info_eq e hlt (by simp [h.info i hi]), h.info i hi]

/-- The parameters among the instructions are passed over, one after the other. -/
theorem HasParams.passes (h : HasParams σ arity) (hσ : Begun σ arity) (hω : ω.Whole) (e : Extends σ ω)
    (p : Program) (henter : Frame.Entered ω.builder.function (arguments.map .int) inner)
    (hcount : arguments.length = arity) {k : Nat} (hk : k ≤ arity) :
    (∃ n, Leads p inner n [] { inner with next := k }) ∧
      ω.Course [] Function.entry ((List.range k).map (Event.inst ⟨·⟩)) { inner with next := k }
        fun _ => none := by
  induction k with
  | zero =>
    have hstart : ({ inner with next := 0 } : Frame) = inner := by rw [← henter.next]
    refine ⟨⟨0, hstart.symm ▸ .rfl' inner⟩, ?_⟩
    constructor
    case reached => exact ⟨henter.function, henter.waiting, henter.size, henter.block, rfl⟩
    case passes => exact .start fun _ => rfl
    case passed => exact fun a ha => nomatch ha
    case here =>
      intro v hv
      rw [hω.entry_phis] at hv
      simp at hv
    case typed => exact fun h => nomatch h
  | succ k ih =>
    obtain ⟨⟨n, hleads⟩, hcourse⟩ := ih (Nat.le_of_succ_le hk)
    obtain ⟨hscript, hinst, hinfo, hlt⟩ := h.places hσ e hk
    have hk' : k < arguments.length := hcount ▸ hk
    have hparam : ω.builder.function.inst ⟨k⟩ = .param k := congrArg Flow.ValueInfo.inst hinfo
    have hheld : inner.value? ⟨k⟩ = some (.int arguments[k]) := by
      rw [henter.params hparam (Array.mem_of_getElem? hinst) hlt, List.getElem?_map,
        List.getElem?_eq_getElem hk']
      rfl
    have hnext : (inner.function.block inner.block).insts[k]? = some ⟨k⟩ := by
      rw [henter.function, henter.block]
      exact hinst
    have hstep : Stepped p { inner with next := k } (.going { inner with next := k + 1 }) :=
      .param hnext (henter.function ▸ hparam) henter.block hheld
    have hreports : ({ inner with next := k } : Frame).reports = [] := by
      have hparam' : inner.function.inst ⟨k⟩ = .param k := henter.function ▸ hparam
      simp only [Frame.reports, hnext, hparam', reportsOf]
    obtain ⟨m, -, hleads'⟩ : ∃ m, 0 < m ∧ Leads p { inner with next := k } m _ _ :=
      leads_of_step henter.waiting hstep
    rw [hreports] at hleads'
    have hscript' : (List.range k).map (Event.inst ⟨·⟩) ++ [.inst ⟨k⟩] =
        (List.range (k + 1)).map (Event.inst ⟨·⟩) := by simp [List.range_succ]
    have hreached : ω.Reached Function.entry ((List.range k).map (Event.inst ⟨·⟩) ++ [.inst ⟨k⟩])
        { inner with next := k + 1 } := by
      refine ⟨henter.function, henter.waiting, henter.size, henter.block, ?_⟩
      simp [instsOf, List.filterMap_append, List.filterMap_map, Event.inst?, Function.comp_def]
    have hsame : ∀ u : Value, inner.value? u =
        if u = ⟨k⟩ then some (.int arguments[k]) else inner.value? u := by
      intro u
      split
      · next hu => exact hu ▸ hheld
      · rfl
    have hty : (Scalar.int arguments[k]).ty = ω.builder.ty ⟨k⟩ :=
      (congrArg Flow.ValueInfo.ty hinfo).symm
    have hassigned := hcourse.assigned hscript hreached hty hsame
    exact ⟨⟨n + m, hleads.trans hleads'⟩, hscript' ▸ hassigned⟩

/-- A new activation comes to where the function had been opened, and has its arguments. -/
theorem Opens.follows (h : Opens name arity σ) (hω : ω.Whole) (e : Extends σ ω) (opened : SymbolTable)
    (p : Program) (henter : Frame.Entered ω.builder.function (arguments.map .int) inner)
    (hcount : arguments.length = arity) :
    ∃ after, (∃ n, Leads p inner n [] after) ∧ Abreast opened ω σ opened [] after ∧
      ∀ i (hi : i < arguments.length), after.value? ⟨i⟩ = some (.int arguments[i]) := by
  have hbegun := h.begun
  have hparams := h.hasParams
  obtain ⟨hleads, hcourse⟩ := hparams.passes hbegun hω e p henter hcount (Nat.le_refl arity)
  rw [← hbegun.current, ← hparams.script] at hcourse
  refine ⟨_, hleads, ⟨[], _, hcourse, ⟨[], rfl, .nil⟩⟩, fun i hi => ?_⟩
  · obtain ⟨-, hinst, hinfo, hlt⟩ := hparams.places hbegun e (hcount ▸ hi)
    have hheld : inner.value? ⟨i⟩ = _ :=
      henter.params (congrArg Flow.ValueInfo.inst hinfo) (Array.mem_of_getElem? hinst) hlt
    refine hheld.trans ?_
    rw [List.getElem?_map, List.getElem?_eq_getElem hi]
    rfl

/-- The parameters become variables, which have the arguments as their numbers. -/
theorem Parameters.follows {names : List String} {i : Nat} {env : List (String × Number)}
    (h : Parameters names i symbols σ symbols' σ') (hσ : σ.Ready)
    (hparams : ∀ k < i + names.length, σ.Has σ.current ⟨k⟩) (hω : ω.Whole)
    (horderly : symbols.Orderly) (e : Extends σ' ω) (ha : Abreast opened ω σ symbols env frame)
    {numbers : List Int64} (hcount : numbers.length = names.length)
    (hheld : ∀ k (hk : k < numbers.length), frame.value? ⟨i + k⟩ = some (.int numbers[k])) :
    Abreast opened ω σ' symbols' ((names.zip (numbers.map Number.int)).reverse ++ env) frame := by
  induction h generalizing env numbers with
  | nil => exact ha
  | @cons name names i symbols σ x symbols₁ symbols' σ' hdefine hrest ih =>
    cases numbers with
    | nil => cases hcount
    | cons n numbers =>
      obtain ⟨hready, hadvance⟩ := advance_introduce hσ x .int (hparams i (by simp))
      have hparams₁ : ∀ k < i + 1 + names.length, ((σ.declare x .int).write x ⟨i⟩).Has
          ((σ.declare x .int).write x ⟨i⟩).current ⟨k⟩ := fun k hk =>
        hadvance.has hσ.sound (hparams k (by simp only [List.length_cons]; omega))
      have e₁ := (hrest.advance hready hparams₁).2.since.extends'.trans e
      have hfirst : Abreast opened ω (σ.declare x .int) symbols env frame := ha
      have hnumber : frame.value? ⟨i⟩ = some (Number.int n).scalar := hheld 0 (Nat.succ_pos _)
      have hall := ih hready hparams₁ (horderly.define hdefine) e
        (hfirst.define hω horderly hdefine e₁ hnumber) (Nat.succ.inj hcount) fun k hk => ?_
      · simpa using hall
      · have hlater := hheld (k + 1) (Nat.succ_lt_succ hk)
        rwa [show i + (k + 1) = i + 1 + k by omega] at hlater

/-! ## The end of a body -/

/-- The result of top-level statements is converted to an integer. -/
theorem Resulting.makes {r' : Option Value} {env : List (String × Number)} {n? : Option Number}
    {p : Program} (h : Resulting σ r r' σ') (hσ : σ.Ready) (hr : ∀ v ∈ r, σ.Has σ.current v)
    (hω : ω.Sound) (e : Extends σ' ω) (ha : Abreast opened ω σ symbols env frame)
    (hheld : r.map frame.value? = n?.map fun n => .some n.scalar) : ∃ after,
      (∃ n, Leads p frame n [] after) ∧ Abreast opened ω σ' symbols env after ∧
        r'.map after.value? = n?.map fun n => .some (.int n.toInt) := by
  cases h with
  | none =>
    refine ⟨frame, ⟨0, .rfl' frame⟩, ha, ?_⟩
    cases n? with
    | none => rfl
    | some n => cases hheld
  | some hcoerced =>
    cases n? with
    | none => cases hheld
    | some n =>
      obtain ⟨after, hleads, hcomes, hv⟩ := hcoerced.makes (p := p) hσ (hr _ rfl) hω e ha
        (Option.some.inj hheld)
      exact ⟨after, hleads, hcomes.abreast, congrArg Option.some hv⟩

/-- At the end of a body its value is given back, or 0 if there is none. -/
theorem Ended.closes {env : List (String × Number)} {n? : Option Int64} (h : Ended σ r ω)
    (hσ : σ.Ready) (hω : ω.Sound) (ha : Abreast opened ω σ symbols env frame)
    (hheld : r.map frame.value? = n?.map fun n => some (.int n)) (p : Program) :
    ∃ n, Closes p frame n [] (.returned (.int (n?.getD 0))) := by
  cases h with
  | value v =>
    cases n? with
    | none => cases hheld
    | some n =>
      obtain ⟨_, _, hcourse, -⟩ := ha
      exact hcourse.reached.ret hω (hσ.stands.ends (.ret v)) (Option.some.inj hheld)
  | zero =>
    cases n? with
    | none =>
      have hzero := gives_emit hσ (.intConst 0) .int (by simp [Inst.operands])
      obtain ⟨-, hsince⟩ := hzero.ready.close (t := .ret σ.next) rfl rfl fun u hu =>
        List.mem_singleton.1 hu ▸ hzero.has
      obtain ⟨after, ⟨n, hleads⟩, hcomes, hv⟩ : Makes p opened _ σ _ symbols env frame σ.next (.int 0) :=
        ha.emit hσ hsince.extends' (.intConst 0) rfl rfl
      obtain ⟨_, _, hcourse, -⟩ := hcomes.abreast
      obtain ⟨m, hcloses⟩ : ∃ m, Closes p after m [] (.returned (.int 0)) :=
        hcourse.reached.ret hω (hzero.ready.stands.ends (.ret σ.next)) hv
      exact ⟨n + m, hleads.closes hcloses⟩
    | some n => cases hheld

/-! ## Whole functions -/

/-- The activation does what the evaluation of the body does, from its first frame on to where the
function had everything but its end. -/
theorem Body.follows {routine : Routine} (h : Body config opened routine b r symbols' σ')
    (hS : Scene S config opened ω ctx depth) (e : Extends σ' ω) {d : Definition}
    (hd : d = routine.meaning ctx.visible)
    (henter : Frame.Entered ω.builder.function (arguments.map .int) inner)
    (hcount : arguments.length = routine.arity) :
    Meaning.Follows S (depth + 1) inner ⟨(d.parameters.zip (arguments.map .int)).reverse, []⟩
      (Meaning.statements ctx d.body) fun n? w after => ∃ symbols, Abreast opened ω σ' symbols w.vars after ∧
        r.map after.value? = (d.result? n?).map fun n => some (.int n) := by
  subst hd
  cases h with
  | @definition name parameters body σ symbols₁ σ₁ b r symbols₂ _ _ hopens hparams hbody hpop =>
    have hbegun := hopens.begun
    have hfresh := hopens.fresh
    have hall : ∀ k < 0 + parameters.length, σ.Has σ.current ⟨k⟩ ∧ σ.builder.ty ⟨k⟩ = .int :=
      fun k hk => ⟨hbegun.current ▸ hbegun.params k (by omega), hfresh.params k (by omega)⟩
    have hhas : ∀ k < 0 + parameters.length, σ.Has σ.current ⟨k⟩ := fun k hk => (hall k hk).1
    have hk₁ : Kept config opened _ _ _ _ _ :=
      hparams.kept hbegun.ready (hfresh.knows hS.global).pushScope hall
    obtain ⟨hready₁, hadvance₁⟩ := hparams.advance hbegun.ready hhas
    have e₁ := (hbody.advance hready₁).2.1.since.extends'.trans e
    have e₀ := hadvance₁.since.extends'.trans e₁
    obtain ⟨first, hleads, habreast, hheld⟩ :=
      hopens.follows hS.whole e₀ opened S.program henter hcount
    have hstart : Abreast opened ω σ opened.pushScope [] first := habreast
    have ha₁ := hparams.follows hbegun.ready hhas hS.whole hS.global.orderly.pushScope e₁ hstart hcount
      fun k hk => by simpa using hheld k hk
    rw [List.append_nil] at ha₁
    refine .steps hleads ((hbody.follows hS hready₁ hk₁.knows e ha₁).mono fun _ w after hsettles => ?_)
    exact ⟨symbols₂, hsettles.comes.abreast, rfl⟩
  | @statements name items σ b r₁ symbols₁ σ₁ _ _ _ hopens hitems hpop hresult =>
    have hready := hopens.begun.ready
    obtain ⟨hready₁, hadvance₁, hr₁⟩ := hitems.advance hready
    have e₁ := (hresult.gives hready₁ hr₁).2.1.since.extends'.trans e
    have e₀ := hadvance₁.since.extends'.trans e₁
    obtain ⟨first, hleads, habreast, -⟩ := hopens.follows hS.whole e₀ opened S.program henter hcount
    have hstart : Abreast opened ω σ opened.pushScope [] first := habreast
    refine .steps hleads ((hitems.follows hS hready (hopens.fresh.knows hS.global).pushScope e₁
      hstart).goOn fun n? w after hsettles => ?_)
    obtain ⟨last, hleads', hlast, hheld⟩ := hresult.makes (p := S.program) hready₁ hr₁ hS.whole.sound e
      hsettles.comes.abreast hsettles.holds
    refine ⟨last, hleads', symbols₁, hlast, hheld.trans ?_⟩
    show _ = (n?.map Number.toInt).map fun n => Option.some (Scalar.int n)
    rw [Option.map_map]
    rfl

/-- From its first frame on, a call of a function that has been lowered comes to the answer. -/
theorem Made.answers {routine : Routine} (h : Made config opened routine b symbols' ω)
    (hS : Scene S config opened ω ctx depth) (hself : ctx.self = routine.name)
    (hcount : arguments.length = routine.arity) : ∃ inner,
      Frame.enter ω.builder.function (arguments.map .int) = .ok inner ∧
        Answers S.program S.fault (depth + 1) S.mayFault inner
          ((routine.meaning ctx.visible).answer ctx.code ctx.call ctx.rounds arguments) := by
  have hparams : (arguments.map Scalar.int).length = ω.builder.function.params.length := by
    rw [h.signature.2, List.length_map, List.length_replicate, hcount]
  obtain ⟨inner, henter, hentered⟩ := Frame.enter_ok hparams
  refine ⟨inner, henter, ?_⟩
  obtain ⟨hbody, hended⟩ := h
  obtain ⟨_, -, hready, -, hr⟩ := hbody.advance
  have e := (hended.since hready hr).2.extends'
  generalize hd : routine.meaning ctx.visible = d
  have hfollows := hbody.follows hS e hd.symm hentered hcount
  have hlength : arguments.length = d.parameters.length := by
    rw [hcount, ← hd]
    cases routine <;> rfl
  have hctx : (⟨d.name, d.visible, ctx.code, ctx.call, ctx.rounds⟩ : Context) = ctx := by
    subst hd
    obtain ⟨self, visible, code, call, rounds⟩ := ctx
    obtain rfl : self = routine.name := hself
    cases routine <;> rfl
  unfold Definition.answer
  rw [if_pos hlength]
  dsimp only
  rw [hctx]
  cases hfollows with
  | @goes last? w n reports after heval hleads hreported hpost =>
    obtain ⟨symbols, hlast, hheld⟩ := hpost
    obtain ⟨m, hcloses⟩ := hended.closes hready hS.whole.sound hlast hheld S.program
    have hall := hleads.closes hcloses
    rw [List.append_nil, Definition.getD_result?] at hall
    rw [heval]
    obtain rfl : w.reports = reports := hreported
    exact .value hall
  | @returns v w n reports heval hcloses hreported =>
    rw [heval]
    obtain rfl : w.reports = reports := hreported
    exact .value hcloses
  | @faults w n reports heval hflag hcloses hreported =>
    rw [heval]
    obtain rfl : w.reports = reports := hreported
    exact .fault hflag hcloses
  | lasts heval hlasts =>
    rw [heval]
    exact .exhausted hlasts

end Abacus.Lowering.Plan
