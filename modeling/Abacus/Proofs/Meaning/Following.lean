import Abacus.Proofs.Meaning.Courses
import Abacus.Proofs.Meaning.Evaluator

/-!
# Following an evaluation

How the evaluation of a part of a body and the activation of the lowered function go together.

* `Follows` — the activation does what the evaluation does: it goes on where the evaluation goes on,
  and it ends, or lasts, as the evaluation stops; `Follows.bind` puts parts together;
* `Mirror` — the variables in scope hold the numbers that the evaluation knows;
* `Beside`, `Abreast` — the activation is behind some events, or where lowering was, and the variables
  agree; `Beside.read`, `Beside.define`, `Beside.replace`, `Beside.jump`, `Beside.branch` — it goes on.
-/

namespace Abacus.Meaning

open Abacus.Lowering (SymbolId SymbolTable FaultConfig)
open Abacus.Machine

variable {α β : Type}

/-- What a value holds for a number. -/
def Number.scalar : Number → Scalar
  | int n => .int n
  | float x => .float x

/-! ## Parts of a body -/

/-- A program, whether the function that is followed may raise a fault, and which one. -/
structure Setting where
  program : Program
  mayFault : Bool
  fault : Fault

/-- From a frame on, the activation does what the evaluation of `x` does. It reports the same faults;
if the evaluation goes on, so does the activation, and if it is given up, the activation lasts for `k`
steps. The evaluation is not stuck. -/
inductive Follows (S : Setting) (k : Nat) (frame : Frame) (w : World) (x : Eval α)
    (post : α → World → Frame → Prop) : Prop
  | goes {a u n reports after} (eval : x w = (.ok a, u))
      (leads : Leads S.program frame n reports after)
      (reported : u.reports = w.reports ++ reports) (post : post a u after)
  | returns {v u n reports} (eval : x w = (.error (.returned v), u))
      (closes : Closes S.program frame n reports (.returned (.int v)))
      (reported : u.reports = w.reports ++ reports)
  | faults {u n reports} (eval : x w = (.error .faulted, u)) (flag : S.mayFault = true)
      (closes : Closes S.program frame n reports (.unwinding S.fault))
      (reported : u.reports = w.reports ++ reports)
  | lasts {u} (eval : x w = (.error .exhausted, u)) (lasts : Lasts S.program frame k)

section

variable {S : Setting} {k : Nat} {frame after : Frame} {w w' : World} {x y : Eval α}
  {f : α → Eval β} {post mid : α → World → Frame → Prop} {post' : β → World → Frame → Prop}

theorem bind_ok {a : α} (h : x w = (.ok a, w')) : (x >>= f) w = f a w' := by
  simp only [bind, ExceptT.bind, ExceptT.mk, StateT.bind, h]
  rfl

theorem bind_error {e : Stop} (h : x w = (.error e, w')) : (x >>= f) w = (.error e, w') := by
  simp only [bind, ExceptT.bind, ExceptT.mk, StateT.bind, h]
  rfl

theorem lookup_ok {name : String} {n : Number} (h : w.vars.lookup name = some n) :
    lookup name w = (.ok n, w) := by
  have hget : (get : Eval World) w = (.ok w, w) := rfl
  unfold lookup
  rw [bind_ok hget, h]
  rfl

/-- What a name calls that stands for a function, and what is no name at all. -/
theorem isPi_eq {ctx : Context} {name : String} : isPi ctx name w =
    (.ok (name = "pi" && name ∉ ctx.visible && (w.vars.lookup name).isNone), w) := rfl

namespace Follows

/-- What the evaluation does without a step of the activation. -/
theorem silent {a : α} (heval : x w = (.ok a, w')) (hreports : w'.reports = w.reports)
    (hpost : post a w' frame) : Follows S k frame w x post :=
  .goes heval (.rfl' frame) (by rw [hreports, List.append_nil]) hpost

theorem pure {a : α} (hpost : post a w frame) : Follows S k frame w (pure a) post :=
  .silent rfl rfl hpost

theorem congr (h : Follows S k frame w y post) (heq : x w = y w) : Follows S k frame w x post := by
  cases h with
  | goes heval hleads hreported hpost => exact .goes (heq.trans heval) hleads hreported hpost
  | returns heval hcloses hreported => exact .returns (heq.trans heval) hcloses hreported
  | faults heval hflag hcloses hreported => exact .faults (heq.trans heval) hflag hcloses hreported
  | lasts heval hlasts => exact .lasts (heq.trans heval) hlasts

theorem mono (h : Follows S k frame w x post) (himp : ∀ a w' after, post a w' after → mid a w' after) :
    Follows S k frame w x mid := by
  cases h with
  | goes heval hleads hreported hpost =>
    exact .goes heval hleads hreported (himp _ _ _ hpost)
  | returns heval hcloses hreported => exact .returns heval hcloses hreported
  | faults heval hflag hcloses hreported => exact .faults heval hflag hcloses hreported
  | lasts heval hlasts => exact .lasts heval hlasts

/-- Steps that the activation makes afterwards. -/
theorem goOn (h : Follows S k frame w x mid) (hgo : ∀ a w' after, mid a w' after →
    ∃ last, (∃ n, Leads S.program after n [] last) ∧ post a w' last) : Follows S k frame w x post := by
  cases h with
  | goes heval hleads hreported hmid =>
    obtain ⟨last, ⟨n, hleads'⟩, hpost⟩ := hgo _ _ _ hmid
    have hboth := hleads.trans hleads'
    rw [List.append_nil] at hboth
    exact .goes heval hboth hreported hpost
  | returns heval hcloses hreported => exact .returns heval hcloses hreported
  | faults heval hflag hcloses hreported => exact .faults heval hflag hcloses hreported
  | lasts heval hlasts => exact .lasts heval hlasts

/-- Fewer steps than those for which an activation lasts. -/
theorem weaken {l : Nat} (h : Follows S k frame w x post) (hle : l ≤ k) :
    Follows S l frame w x post := by
  cases h with
  | goes heval hleads hreported hpost => exact .goes heval hleads hreported hpost
  | returns heval hcloses hreported => exact .returns heval hcloses hreported
  | faults heval hflag hcloses hreported => exact .faults heval hflag hcloses hreported
  | lasts heval hlasts => exact .lasts heval (hlasts.mono hle)

/-- Steps that the activation makes before. -/
theorem step {n : Nat} (hleads : Leads S.program frame n [] after)
    (h : Follows S k after w x post) : Follows S (n + k) frame w x post := by
  cases h with
  | goes heval hleads' hreported hpost => exact .goes heval (hleads.trans hleads') hreported hpost
  | returns heval hcloses hreported => exact .returns heval (hleads.closes hcloses) hreported
  | faults heval hflag hcloses hreported =>
    exact .faults heval hflag (hleads.closes hcloses) hreported
  | lasts heval hlasts => exact .lasts heval (hleads.lasts hlasts)

theorem steps (hleads : ∃ n, Leads S.program frame n [] after) (h : Follows S k after w x post) :
    Follows S k frame w x post := by
  obtain ⟨n, hleads⟩ := hleads
  exact (h.step hleads).weaken (Nat.le_add_left k n)

/-- One part after the other. -/
theorem bind (h : Follows S k frame w x mid)
    (hf : ∀ a w' after, mid a w' after → Follows S k after w' (f a) post') :
    Follows S k frame w (x >>= f) post' := by
  cases h with
  | @goes a w₁ n reports after heval hleads hreported hmid =>
    have hreports : ∀ {w' : World} {reports'}, w'.reports = w₁.reports ++ reports' →
        w'.reports = w.reports ++ (reports ++ reports') := fun h => by
      rw [h, hreported, List.append_assoc]
    cases hf a w₁ after hmid with
    | goes heval' hleads' hreported' hpost =>
      exact .goes ((bind_ok heval).trans heval') (hleads.trans hleads') (hreports hreported') hpost
    | returns heval' hcloses hreported' =>
      exact .returns ((bind_ok heval).trans heval') (hleads.closes hcloses) (hreports hreported')
    | faults heval' hflag hcloses hreported' =>
      exact .faults ((bind_ok heval).trans heval') hflag (hleads.closes hcloses)
        (hreports hreported')
    | lasts heval' hlasts =>
      exact .lasts ((bind_ok heval).trans heval')
        ((hleads.lasts hlasts).mono (Nat.le_add_left k n))
  | returns heval hcloses hreported => exact .returns (bind_error heval) hcloses hreported
  | faults heval hflag hcloses hreported => exact .faults (bind_error heval) hflag hcloses hreported
  | lasts heval hlasts => exact .lasts (bind_error heval) hlasts

/-- The evaluation does something without a step of the activation. -/
theorem past {a : α} (heval : x w = (.ok a, w')) (hreports : w'.reports = w.reports)
    (h : Follows S k frame w' (f a) post') : Follows S k frame w (x >>= f) post' := by
  have hfirst : Follows S k frame w x fun b u after => b = a ∧ u = w' ∧ after = frame :=
    .silent heval hreports ⟨rfl, rfl, rfl⟩
  refine hfirst.bind ?_
  rintro _ _ _ ⟨rfl, rfl, rfl⟩
  exact h

end Follows

end

/-! ## Variables -/

/-- The variables in scope are those of the evaluation, in the same order, and were given its numbers
last. All other names in scope are those of `opened`. -/
def Mirror (opened : SymbolTable) (latest : SymbolId → Option (Option Scalar))
    (symbols : SymbolTable) (env : List (String × Number)) : Prop :=
  ∃ vars, symbols.entries = vars ++ opened.entries ∧
    List.Forall₂ (fun e n => e.2.binding = .var ∧ e.1 = n.1 ∧
      latest e.2.id = some (some n.2.scalar)) vars env

section

variable {opened symbols symbols₁ symbols₂ : SymbolTable} {x : SymbolId} {name : String}
  {latest latest' : SymbolId → Option (Option Scalar)} {env env₁ : List (String × Number)} {n : Number}

/-- A name stands in the mirror for a variable of the same number. -/
theorem forall₂_lookup {vars : List (String × Lowering.Symbol)}
    (h : List.Forall₂ (fun e n => e.2.binding = .var ∧ e.1 = n.1 ∧
      latest e.2.id = some (some n.2.scalar)) vars env) (name : String) :
    match vars.lookup name with
    | some s => ∃ n, env.lookup name = some n ∧ latest s.id = some (some n.scalar)
    | none => env.lookup name = none := by
  induction h with
  | nil => rfl
  | @cons e m vars env he _ ih =>
    obtain ⟨other, s⟩ := e
    obtain ⟨other', number⟩ := m
    obtain ⟨-, hname, hlatest⟩ := he
    obtain rfl : other = other' := hname
    rw [List.lookup_cons, List.lookup_cons]
    cases name == other with
    | true => exact ⟨number, rfl, hlatest⟩
    | false => exact ih

/-- The mirror does not change with a variable that is not in it. -/
theorem forall₂_of_ne {vars : List (String × Lowering.Symbol)}
    (h : List.Forall₂ (fun e n => e.2.binding = .var ∧ e.1 = n.1 ∧
      latest e.2.id = some (some n.2.scalar)) vars env)
    (hlatest : ∀ y, y ≠ x → latest' y = latest y) (hvars : ∀ e ∈ vars, e.2.id ≠ x) :
    List.Forall₂ (fun e n => e.2.binding = .var ∧ e.1 = n.1 ∧
      latest' e.2.id = some (some n.2.scalar)) vars env := by
  induction h with
  | nil => exact .nil
  | @cons e m vars env he _ ih =>
    refine .cons ⟨he.1, he.2.1, ?_⟩ (ih fun e he => hvars e (List.mem_cons_of_mem _ he))
    rw [hlatest _ (hvars _ List.mem_cons_self)]
    exact he.2.2

namespace Mirror

/-- A variable in scope has a number, which it was given last. -/
theorem lookup (h : Mirror opened latest symbols env) (hopened : opened.Global)
    (hfind : symbols.findVariable name = .ok x) :
    ∃ n, env.lookup name = some n ∧ latest x = some (some n.scalar) := by
  obtain ⟨vars, hentries, hvars⟩ := h
  have hlookup := SymbolTable.findVariable_ok hfind
  rw [SymbolTable.lookup?_eq, hentries, List.lookup_append] at hlookup
  have hmirror := forall₂_lookup hvars name
  cases hs : vars.lookup name with
  | some s =>
    rw [hs] at hlookup hmirror
    cases hlookup
    exact hmirror
  | none =>
    rw [hs] at hlookup
    exact absurd rfl (hopened.functions _ (SymbolTable.mem_of_lookup hlookup))

/-- What is no name in scope is no variable either. -/
theorem lookup_none (h : Mirror opened latest symbols env) (hfree : symbols.lookup? name = none) :
    env.lookup name = none ∧ opened.lookup? name = none := by
  obtain ⟨vars, hentries, hvars⟩ := h
  rw [SymbolTable.lookup?_eq, hentries, List.lookup_append] at hfree
  have hmirror := forall₂_lookup hvars name
  cases hs : vars.lookup name with
  | some s =>
    rw [hs] at hfree
    cases hfree
  | none =>
    rw [hs] at hfree hmirror
    exact ⟨hmirror, (SymbolTable.lookup?_eq ..).trans hfree⟩

/-- A function in scope is known from the start. -/
theorem findFunction (h : Mirror opened latest symbols env) {id : SymbolId} {arity : Nat}
    {handled : Bool} (hfind : symbols.findFunction name = .ok (id, arity, handled)) :
    opened.lookup? name = some ⟨id, .function arity handled⟩ := by
  obtain ⟨vars, hentries, hvars⟩ := h
  have hlookup := SymbolTable.findFunction_ok hfind
  rw [SymbolTable.lookup?_eq, hentries, List.lookup_append] at hlookup
  cases hs : vars.lookup name with
  | some s =>
    -- It would be a variable.
    rw [hs] at hlookup
    cases hlookup
    obtain ⟨i, hi, he⟩ := List.getElem_of_mem (SymbolTable.mem_of_lookup hs)
    have hvar := (hvars.get hi (hvars.length_eq ▸ hi)).1
    rw [List.get_eq_getElem, he] at hvar
    cases hvar
  | none =>
    rw [hs] at hlookup
    exact (SymbolTable.lookup?_eq ..).trans hlookup

/-- A variable is defined. -/
theorem define (h : Mirror opened latest symbols env) (horderly : symbols.Orderly)
    (hdefine : symbols.define name .var = .ok (x, symbols₁)) (hx : latest' x = some (some n.scalar))
    (hlatest : ∀ y, y ≠ x → latest' y = latest y) :
    Mirror opened latest' symbols₁ ((name, n) :: env) := by
  obtain ⟨vars, hentries, hvars⟩ := h
  refine ⟨(name, ⟨x, .var⟩) :: vars, ?_, .cons ⟨rfl, rfl, hx⟩ ?_⟩
  · rw [SymbolTable.entries_define hdefine, hentries]
    rfl
  · -- The variables before have other identities.
    have hfresh : ∀ e ∈ vars, e.2.id ≠ x := by
      intro e he hex
      have hlt := horderly.fresh e (by rw [hentries]; exact List.mem_append_left _ he)
      rw [hex, (SymbolTable.define_ok hdefine).1] at hlt
      exact Nat.lt_irrefl _ hlt
    exact forall₂_of_ne hvars hlatest hfresh

/-- A variable is assigned. -/
theorem replace (h : Mirror opened latest symbols env) (hopened : opened.Global)
    (horderly : symbols.Orderly) (hfind : symbols.findVariable name = .ok x)
    (hx : latest' x = some (some n.scalar)) (hlatest : ∀ y, y ≠ x → latest' y = latest y) :
    Mirror opened latest' symbols (Meaning.replace name n env) := by
  obtain ⟨vars, hentries, hvars⟩ := h
  refine ⟨vars, hentries, ?_⟩
  have hlookup := SymbolTable.findVariable_ok hfind
  rw [SymbolTable.lookup?_eq, hentries, List.lookup_append] at hlookup
  have hfirst : vars.lookup name = some ⟨x, .var⟩ := by
    cases hs : vars.lookup name with
    | some s =>
      rw [hs] at hlookup
      exact hlookup
    | none =>
      rw [hs] at hlookup
      exact absurd rfl (hopened.functions _ (SymbolTable.mem_of_lookup hlookup))
  have hdistinct : (vars.map (·.2.id)).Nodup := by
    have hall := horderly.distinct
    rw [hentries, List.map_append] at hall
    exact (List.nodup_append.1 hall).1
  clear hentries hlookup
  induction hvars with
  | nil => cases hfirst
  | @cons e m vars env he hrest ih =>
    obtain ⟨other, s⟩ := e
    obtain ⟨other', number⟩ := m
    obtain ⟨hvar, hname, hnumber⟩ := he
    obtain rfl : other = other' := hname
    rw [List.map_cons, List.nodup_cons] at hdistinct
    rw [List.lookup_cons] at hfirst
    unfold Meaning.replace
    by_cases hother : other = name
    · rw [if_pos hother]
      rw [beq_iff_eq.2 hother.symm] at hfirst
      cases hfirst
      exact .cons ⟨rfl, rfl, hx⟩ (forall₂_of_ne hrest hlatest fun e he hex =>
        hdistinct.1 (List.mem_map.2 ⟨e, he, hex⟩))
    · rw [if_neg hother]
      rw [beq_eq_false_iff_ne.2 (Ne.symm hother)] at hfirst
      refine .cons ⟨hvar, rfl, ?_⟩ (ih hfirst hdistinct.2)
      rw [hlatest]
      · exact hnumber
      · rintro rfl
        exact hdistinct.1 (List.mem_map.2 ⟨_, SymbolTable.mem_of_lookup hfirst, rfl⟩)

theorem of_scopes (h : Mirror opened latest symbols env) (hscopes : symbols₁.scopes = symbols.scopes) :
    Mirror opened latest symbols₁ env := by
  obtain ⟨vars, hentries, hvars⟩ := h
  exact ⟨vars, (congrArg List.flatten hscopes).trans hentries, hvars⟩

/-- A scope is closed: the variables that are new in it go. -/
theorem popScope (h : Mirror opened latest symbols₁ env₁)
    (hbefore : Mirror opened latest' symbols env)
    (hgrown : SymbolTable.Grown symbols.pushScope symbols₁)
    (hpop : symbols₁.popScope = .ok symbols₂) :
    Mirror opened latest symbols₂ (env₁.drop (env₁.length - env.length)) := by
  obtain ⟨vars₁, hentries₁, hvars₁⟩ := h
  obtain ⟨vars, hentries, hvars⟩ := hbefore
  obtain ⟨new, hinnermost, -⟩ := hgrown.innermost
  have hentries₂ : symbols₂.entries = symbols.entries := by
    unfold SymbolTable.entries
    rw [(hgrown.popped hpop).1]
  have hnew : symbols₁.entries = new ++ symbols.entries := by
    show symbols₁.innermost ++ symbols₁.enclosing.flatten = _
    rw [hinnermost, hgrown.enclosing]
    show new ++ [] ++ symbols.scopes.flatten = _
    rw [List.append_nil]
    rfl
  obtain rfl : vars₁ = new ++ vars := by
    rw [hnew, hentries, ← List.append_assoc] at hentries₁
    exact (List.append_cancel_right hentries₁).symm
  refine ⟨vars, hentries₂.trans hentries, ?_⟩
  have hlength : env₁.length - env.length = new.length := by
    rw [← hvars₁.length_eq, ← hvars.length_eq, List.length_append]
    omega
  rw [hlength]
  have hdrop := List.forall₂_drop new.length hvars₁
  rwa [List.drop_left] at hdrop

end Mirror

end

/-! ## Where the activation is -/

open Abacus.Flow (Value Ty Inst)
open Abacus.Lowering (Plan Event)
open Abacus.Lowering.Plan

/-- The activation is behind some events of a block, and the variables in scope have their numbers. -/
def Beside (opened : SymbolTable) (ω : Plan) (b : Flow.Block) (done : List Event)
    (symbols : SymbolTable) (env : List (String × Number)) (frame : Frame) : Prop :=
  ∃ p latest, ω.Course p b done frame latest ∧ Mirror opened latest symbols env

/-- The activation is where lowering was in `σ`, and the variables in scope have their numbers. -/
def Abreast (opened : SymbolTable) (ω σ : Plan) (symbols : SymbolTable)
    (env : List (String × Number)) (frame : Frame) : Prop :=
  Beside opened ω σ.current (σ.record.script σ.current) symbols env frame

/-- From `frame` the activation has come to behind some events of a block. Values with an index below
`first` hold what they held. -/
structure Arrives (opened : SymbolTable) (ω : Plan) (first : Nat) (frame : Frame) (b : Flow.Block)
    (done : List Event) (symbols : SymbolTable) (env : List (String × Number)) (after : Frame) :
    Prop where
  beside : Beside opened ω b done symbols env after
  keeps : ∀ u : Value, u.index < first → after.value? u = frame.value? u

/-- The activation has come from where lowering was in `σ` to where it was in `σ'`. What was there
before holds what it held. -/
def Comes (opened : SymbolTable) (ω σ σ' : Plan) (symbols : SymbolTable)
    (env : List (String × Number)) (frame after : Frame) : Prop :=
  Arrives opened ω σ.builder.valueCount frame σ'.current (σ'.record.script σ'.current) symbols env after

namespace Beside

variable {opened symbols symbols₁ : SymbolTable} {ω : Plan} {b : Flow.Block} {done later : List Event}
  {env : List (String × Number)} {frame : Frame} {name : String} {x : SymbolId} {v : Value} {n : Number}

/-- A read is passed, and finds the number of the variable. -/
theorem read (h : Beside opened ω b done symbols env frame) (hω : ω.Whole) (hglobal : opened.Global)
    (hfind : symbols.findVariable name = .ok x)
    (hscript : ω.record.script b = done ++ .read x v :: later) :
    Beside opened ω b (done ++ [.read x v]) symbols env frame ∧ ∃ n, env.lookup name = some n ∧
      frame.value? v = some n.scalar ∧ ω.known.type? x = some n.scalar.ty := by
  obtain ⟨p, latest, hcourse, hmirror⟩ := h
  obtain ⟨n, hlookup, hlatest⟩ := hmirror.lookup hglobal hfind
  obtain ⟨hpassed, hread⟩ := hcourse.read hω hscript
  obtain ⟨scalar, hscalar, hty⟩ := hcourse.typed hlatest
  cases hscalar
  exact ⟨⟨p, latest, hpassed, hmirror⟩, n, hlookup, Option.some.inj (hread.symm.trans hlatest), hty⟩

/-- A new variable is written. -/
theorem define (h : Beside opened ω b done symbols env frame) (hω : ω.Whole)
    (horderly : symbols.Orderly) (hdefine : symbols.define name .var = .ok (x, symbols₁))
    (hscript : ω.record.script b = done ++ .write x v :: later)
    (hv : frame.value? v = some n.scalar) :
    Beside opened ω b (done ++ [.write x v]) symbols₁ ((name, n) :: env) frame := by
  obtain ⟨p, latest, hcourse, hmirror⟩ := h
  refine ⟨p, _, hcourse.write hω hscript, hmirror.define horderly hdefine ?_ fun y hy => if_neg hy⟩
  exact (if_pos rfl).trans (congrArg some hv)

/-- A variable is written again. -/
theorem replace (h : Beside opened ω b done symbols env frame) (hω : ω.Whole)
    (hglobal : opened.Global) (horderly : symbols.Orderly)
    (hfind : symbols.findVariable name = .ok x)
    (hscript : ω.record.script b = done ++ .write x v :: later)
    (hv : frame.value? v = some n.scalar) :
    Beside opened ω b (done ++ [.write x v]) symbols (Meaning.replace name n env) frame := by
  obtain ⟨p, latest, hcourse, hmirror⟩ := h
  refine ⟨p, _, hcourse.write hω hscript, hmirror.replace hglobal horderly hfind ?_
    fun y hy => if_neg hy⟩
  exact (if_pos rfl).trans (congrArg some hv)

/-- Control jumps to a block whose phis are new. -/
theorem jump {first : Nat} {target : Flow.Block}
    (h : Beside opened ω b done symbols env frame) (hω : ω.Whole)
    (hends : ω.Ends b done (.jump target))
    (hphis : ∀ phi ∈ (ω.builder.info target).phis, first ≤ phi.index) (program : Program) :
    ∃ after, (∃ n, Leads program frame n [] after) ∧
      Arrives opened ω first frame target [] symbols env after := by
  obtain ⟨p, latest, hcourse, hmirror⟩ := h
  have hstart : Walk program ω first frame p b done frame latest := .start hcourse first
  obtain ⟨after, hwalk, -⟩ := hstart.jump hω hends hphis
  exact ⟨after, hwalk.leads, ⟨_, latest, hwalk.course, hmirror⟩, hwalk.keeps⟩

/-- A truth value decides where control goes. -/
theorem branch (h : Beside opened ω b done symbols env frame) (hω : ω.Whole) {test : Value}
    {c thenDest elseDest : Flow.Block} (hends : ω.Ends b done (.branch test thenDest elseDest))
    {taken : Bool} (htest : frame.value? test = some (.bool taken))
    (hc : c = if taken then thenDest else elseDest) (hone : ω.OneWay c b) (first : Nat)
    (program : Program) : ∃ after, (∃ n, Leads program frame n [] after) ∧
      Arrives opened ω first frame c [] symbols env after := by
  obtain ⟨p, latest, hcourse, hmirror⟩ := h
  have hstart : Walk program ω first frame p b done frame latest := .start hcourse first
  obtain ⟨after, hwalk, -⟩ := hstart.branch hω hends htest hc hone
  exact ⟨after, hwalk.leads, ⟨_, latest, hwalk.course, hmirror⟩, hwalk.keeps⟩

theorem of_scopes (h : Beside opened ω b done symbols env frame)
    (hscopes : symbols₁.scopes = symbols.scopes) : Beside opened ω b done symbols₁ env frame := by
  obtain ⟨p, latest, hcourse, hmirror⟩ := h
  exact ⟨p, latest, hcourse, hmirror.of_scopes hscopes⟩

end Beside

/-- What a part of an expression leads to: the variables are as they were, and the values hold the
contents. -/
structure Yields (opened : SymbolTable) (ω σ σ' : Plan) (symbols : SymbolTable) (w : World)
    (frame : Frame) (vs : List Value) (contents : List Scalar) (w' : World) (after : Frame) : Prop where
  vars : w'.vars = w.vars
  comes : Comes opened ω σ σ' symbols w.vars frame after
  holds : vs.map after.value? = contents.map some

/-- The activation comes to where lowering was in `σ'` without a report, and the value holds
`content` there. -/
def Makes (p : Program) (opened : SymbolTable) (ω σ σ' : Plan) (symbols : SymbolTable)
    (env : List (String × Number)) (frame : Frame) (v : Value) (content : Scalar) : Prop :=
  ∃ after, (∃ n, Leads p frame n [] after) ∧ Comes opened ω σ σ' symbols env frame after ∧
    after.value? v = some content

section

variable {p : Program} {opened symbols symbols₁ symbols₂ : SymbolTable} {ω σ σ₁ σ₂ : Plan}
  {env env₁ env₂ : List (String × Number)} {frame mid after : Frame} {v w : Value}
  {content content' : Scalar}

theorem Comes.abreast (h : Comes opened ω σ σ₁ symbols env frame after) :
    Abreast opened ω σ₁ symbols env after := h.beside

theorem Comes.retains (h : Comes opened ω σ σ₁ symbols env frame after) (u : Value)
    (hu : u.index < σ.builder.valueCount) : after.value? u = frame.value? u := Arrives.keeps h u hu

theorem Comes.rfl' (h : Abreast opened ω σ symbols env frame) :
    Comes opened ω σ σ symbols env frame frame := ⟨h, fun _ _ => rfl⟩

theorem Comes.trans (h₁ : Comes opened ω σ σ₁ symbols₁ env₁ frame mid)
    (h₂ : Comes opened ω σ₁ σ₂ symbols₂ env₂ mid after) (e : Extends σ σ₁) :
    Comes opened ω σ σ₂ symbols₂ env₂ frame after where
  beside := h₂.abreast
  keeps u hu := (h₂.retains u (Nat.lt_of_lt_of_le hu e.valueCount)).trans (h₁.retains u hu)

/-- An activation that has walked to where lowering was in `σ₁`. -/
theorem Comes.of_walk {path : List Flow.Block} {latest : SymbolId → Option (Option Scalar)}
    (h : Walk p ω σ.builder.valueCount frame path σ₁.current (σ₁.record.script σ₁.current) after latest)
    (hmirror : Mirror opened latest symbols env) : Comes opened ω σ σ₁ symbols env frame after :=
  ⟨⟨path, latest, h.course, hmirror⟩, h.keeps⟩

/-- Values that could be used before are still there. -/
theorem Comes.keeps (h : Comes opened ω σ σ₁ symbols env frame after) (hσ : σ.Sound) {b : Flow.Block}
    (hv : σ.Has b v) (hcontent : frame.value? v = some content) : after.value? v = some content :=
  (h.retains v (hσ.lt_of_has hv)).trans hcontent

section

variable {w w₁ w₂ : World} {us vs : List Value} {contents contents' : List Scalar}

theorem Yields.abreast (h : Yields opened ω σ σ₁ symbols w frame vs contents w₁ after) :
    Abreast opened ω σ₁ symbols w₁.vars after := by
  rw [h.vars]
  exact h.comes.abreast

theorem Yields.value (h : Yields opened ω σ σ₁ symbols w frame [v] [content] w₁ after) :
    after.value? v = some content := by simpa using h.holds

/-- What is yielded after something else. -/
theorem Yields.trans (h₁ : Yields opened ω σ σ₁ symbols w frame vs contents w₁ mid)
    (h₂ : Yields opened ω σ₁ σ₂ symbols w₁ mid us contents' w₂ after) (e : Extends σ σ₁) :
    Yields opened ω σ σ₂ symbols w frame us contents' w₂ after where
  vars := h₂.vars.trans h₁.vars
  comes := h₁.comes.trans (h₁.vars ▸ h₂.comes) e
  holds := h₂.holds

end

theorem Makes.here (h : Abreast opened ω σ symbols env frame) (hv : frame.value? v = some content) :
    Makes p opened ω σ σ symbols env frame v content := ⟨frame, ⟨0, .rfl' frame⟩, .rfl' h, hv⟩

/-- A value that is made while the evaluation gives its number. -/
theorem Makes.follows {S : Setting} {k : Nat} {w : World} {x : Eval Number} {n : Number}
    (h : Makes S.program opened ω σ σ₁ symbols w.vars frame v n.scalar) (heval : x w = (.ok n, w)) :
    Follows S k frame w x fun n => Yields opened ω σ σ₁ symbols w frame [v] [n.scalar] := by
  obtain ⟨after, hleads, hcomes, hv⟩ := h
  exact .steps hleads (.silent heval rfl ⟨rfl, hcomes, by simp [hv]⟩)

/-- One value after the other. -/
theorem Makes.then (h : Makes p opened ω σ σ₁ symbols env frame v content) (e : Extends σ σ₁)
    (hnext : ∀ mid, Comes opened ω σ σ₁ symbols env frame mid → mid.value? v = some content →
      Makes p opened ω σ₁ σ₂ symbols env mid w content') :
    Makes p opened ω σ σ₂ symbols env frame w content' := by
  obtain ⟨mid, ⟨n, hleads⟩, hcomes, hv⟩ := h
  obtain ⟨after, ⟨m, hleads'⟩, hcomes', hw⟩ := hnext mid hcomes hv
  exact ⟨after, ⟨n + m, hleads.trans hleads'⟩, hcomes.trans hcomes' e, hw⟩

namespace Abreast

/-- A value that can be used holds something of its type. -/
theorem ty (h : Abreast opened ω σ symbols env frame) (hω : ω.Sound) (hσ : σ.Sound)
    (e : Extends σ ω) (hv : σ.Has σ.current v) (hcontent : frame.value? v = some content) :
    σ.builder.ty v = content.ty := by
  obtain ⟨p, latest, hcourse, -⟩ := h
  obtain ⟨other, hother, hty⟩ := hcourse.holds hω ((hv.usable hσ).mono e fun _ h => h)
  obtain rfl : other = content := Option.some.inj (hother.symm.trans hcontent)
  rw [hty, hv.ty hσ e]

/-- The activation executes the instruction that is emitted. -/
theorem emit (h : Abreast opened ω σ symbols env frame) (hσ : σ.Ready) {inst : Inst} {ty : Ty}
    (e : Extends (σ.emit inst ty) ω) (heval : Evaluated frame inst content frame)
    (hty : content.ty = ty) (hreports : reportsOf frame inst = []) :
    Makes p opened ω σ (σ.emit inst ty) symbols env frame σ.next content := by
  obtain ⟨path, latest, hcourse, hmirror⟩ := h
  have hplaces := (hσ.sound.places_emit hσ.isOpen inst ty).mono e
  obtain ⟨after, hwalk, hvalue, -⟩ := (Walk.start hcourse σ.builder.valueCount).execute hplaces heval
    hty hreports (Nat.le_refl _)
  rw [← script_emit_self inst ty] at hwalk
  exact ⟨after, hwalk.leads, .of_walk hwalk hmirror, hvalue⟩

end Abreast

end

/-! ## What is met -/

/-- From its first frame on a call comes to the answer; if that is given up, the call lasts for `k`
steps. A fault can only come out of it if the function may raise one. -/
inductive Answers (p : Program) (fault : Fault) (k : Nat) (mayFault : Bool) (inner : Frame) :
    Answer × List FaultReport → Prop
  | value {v n reports} : Closes p inner n reports (.returned (.int v)) →
      Answers p fault k mayFault inner (.value v, reports)
  | fault {n reports} : mayFault = true → Closes p inner n reports (.unwinding fault) →
      Answers p fault k mayFault inner (.fault, reports)
  | exhausted {reports} : Lasts p inner k → Answers p fault k mayFault inner (.exhausted, reports)

/-- A function of the program can be called with the arguments, and the call comes to the answer. -/
def Callable (p : Program) (fault : Fault) (k : Nat) (mayFault : Bool) (name : String)
    (arguments : List Int64) (result : Answer × List FaultReport) : Prop :=
  ∃ f inner, p.get? name = some f ∧ Frame.enter f (arguments.map .int) = .ok inner ∧
    Answers p fault k mayFault inner result

/-- What an activation of a function that has been lowered meets: it goes through the plan `ω`, and
calls of the functions that were known when it was lowered come to what the evaluation says of them.
If a call is given up, it lasts for `depth` steps. -/
structure Scene (S : Setting) (config : FaultConfig) (opened : SymbolTable) (ω : Plan)
    (ctx : Context) (depth : Nat) : Prop where
  whole : ω.Whole
  global : opened.Global
  self : ω.builder.function.name = ctx.self
  fault : S.fault = ⟨config.code, config.typeId⟩
  code : ctx.code = config.code
  rounds : ctx.rounds = depth + 1
  raises : ω.Raises → S.mayFault = true
  visible : ∀ name, name ∈ ctx.visible ↔ (opened.lookup? name).isSome = true
  calls : ∀ {name id arity handled} {arguments : List Int64},
    opened.lookup? name = some ⟨id, .function arity handled⟩ → arguments.length = arity →
    ∃ mayFault, Callable S.program S.fault depth mayFault name arguments (ctx.call name arguments) ∧
      (mayFault = true →
        if name = ctx.self then handled = false ∧ S.mayFault = true else handled = true)

end Abacus.Meaning
