import Abacus.Proofs.Lowering.Statements
import Abacus.Proofs.Meaning.Expressions

/-!
# Following loops

An activation goes round a loop as the evaluation does: the header decides as the evaluation decides,
and behind the body the variable is counted up. The invariant is that at the header the variables in
scope have their numbers and the bound is there.

* `LoopHeadAt.decides`, `LoopTailAt.goesRound` — the parts of a round;
* `count_follows` — all rounds, by induction on their number.
-/

namespace Abacus.Meaning

variable {index name : String} {limit i : Int64} {n old : Number} {body : Eval Unit} {rounds : Nat}
  {w : World}

/-! ## Rounds of the evaluation -/

theorem assign_ok (h : w.vars.lookup name = some old) :
    assign name n w = (.ok (), { w with vars := replace name (n.like old) w.vars }) :=
  bind_ok (lookup_ok h)

theorem countUp_ok (h : w.vars.lookup index = some (.int i)) :
    countUp index w = (.ok (), { w with vars := replace index (.int (i + 1)) w.vars }) :=
  (bind_ok (lookup_ok h)).trans (assign_ok h)

theorem count_again (h : w.vars.lookup index = some (.int i)) (hlt : i < limit) :
    count index limit body (rounds + 1) w =
      (body >>= fun _ => countUp index >>= fun _ => count index limit body rounds) w := by
  refine (bind_ok (lookup_ok h)).trans ?_
  rw [Number.toInt, if_pos hlt]

theorem count_done (h : w.vars.lookup index = some (.int i)) (hge : ¬ i < limit) :
    count index limit body (rounds + 1) w = (.ok (), w) := by
  refine (bind_ok (lookup_ok h)).trans ?_
  rw [Number.toInt, if_neg hge]
  rfl

end Abacus.Meaning

namespace Abacus.Meaning.Beside

open Abacus.Flow (Value Block)
open Abacus.Machine (Frame)
open Abacus.Lowering (SymbolId SymbolTable Plan Event)

variable {opened symbols : SymbolTable} {ω : Plan} {b : Block} {done later : List Event}
  {env : List (String × Number)} {frame : Frame} {name : String} {x : SymbolId} {v : Value}

/-- The variable of a loop is read, which is an integer. -/
theorem readIndex (h : Beside opened ω b done symbols env frame) (hω : ω.Whole)
    (hglobal : opened.Global) (hfind : symbols.findVariable name = .ok x)
    (htype : ω.known.type? x = some .int) (hscript : ω.record.script b = done ++ .read x v :: later) :
    Beside opened ω b (done ++ [.read x v]) symbols env frame ∧ ∃ i : Int64,
      env.lookup name = some (.int i) ∧ frame.value? v = some (.int i) := by
  obtain ⟨hpassed, n, hlookup, hv, hty⟩ := h.read hω hglobal hfind hscript
  obtain ⟨i, rfl⟩ := Number.of_int (Option.some.inj (hty.symm.trans htype))
  exact ⟨hpassed, i, hlookup, hv⟩

end Abacus.Meaning.Beside

namespace Abacus.Lowering.Plan

open Abacus.Flow (Value Block Ty Inst Terminator)
open Abacus.Machine
open Abacus.Meaning

/-! ## Rounds -/

section

variable {S : Setting} {opened symbols : SymbolTable} {ω : Plan} {b b' header body last exit : Block}
  {done done' : List Event} {x : SymbolId} {limit v v' test one next : Value} {first k : Nat}
  {index : String} {bound : Int64} {env : List (String × Number)} {frame : Frame}

/-- What holds of the variable of a loop. -/
structure Indexed (ω : Plan) (opened symbols : SymbolTable) (index : String) (x : SymbolId) : Prop where
  whole : ω.Whole
  global : opened.Global
  orderly : symbols.Orderly
  find : symbols.findVariable index = .ok x
  type : ω.known.type? x = some .int

/-- In the header the variable is compared with the bound. -/
theorem LoopHeadAt.decides (hat : LoopHeadAt ω b done x limit v test header body exit)
    (hx : Indexed ω opened symbols index x) (htoExit : ω.OneWay exit header)
    (hnew : first ≤ test.index) (hlimit : frame.value? limit = some (.int bound))
    (h : Beside opened ω header [] symbols env frame) (program : Program) :
    ∃ i, env.lookup index = some (.int i) ∧ ∃ after, (∃ n, 0 < n ∧ Leads program frame n [] after) ∧
      Arrives opened ω first frame (if i < bound then body else exit) [] symbols env after := by
  obtain ⟨⟨p, latest, hcourse, hmirror⟩, i, hlookup, hv⟩ :=
    h.readIndex hx.whole hx.global hx.find hx.type hat.branches.script
  obtain ⟨f₁, ⟨n, hpos, hleads⟩, hcourse₁, htest, hsame⟩ :=
    hcourse.execute hat.compares (.intCompare hv hlimit) rfl
  have hone : ω.OneWay (if i < bound then body else exit) header := by
    split
    · exact hat.toBody
    · exact htoExit
  have hbeside₁ : Beside opened ω header [.read x v, .inst test] symbols env f₁ :=
    ⟨p, latest, hcourse₁, hmirror⟩
  obtain ⟨f₂, ⟨m, hleads'⟩, h₂⟩ := hbeside₁.branch hx.whole hat.branches htest
    (c := if i < bound then body else exit) (by simp [intCompare]) hone first program
  refine ⟨i, hlookup, f₂, ⟨n + m, by omega, hleads.trans hleads'⟩, h₂.beside,
    fun u hu => (h₂.keeps u hu).trans (hsame u ?_)⟩
  rintro rfl
  exact Nat.not_le.2 hu hnew

/-- Behind the body the variable is counted up, and control goes back to the header. -/
theorem LoopTailAt.goesRound (hat : LoopTailAt ω b done x v one next header last exit)
    (hx : Indexed ω opened symbols index x) (hone : first ≤ one.index) (hnext : first ≤ next.index)
    (hne : v ≠ one) (hphis : ∀ phi ∈ (ω.builder.info header).phis, first ≤ phi.index)
    (h : Beside opened ω b done symbols env frame) (program : Program) :
    ∃ i, env.lookup index = some (.int i) ∧ ∃ after, (∃ n, Leads program frame n [] after) ∧
      Arrives opened ω first frame header [] symbols (replace index (.int (i + 1)) env) after := by
  obtain ⟨p, latest, hcourse, hmirror⟩ := h
  have hstart : Walk program ω first frame p b done frame latest := .start hcourse first
  have hlast : ∀ phi ∈ (ω.builder.info last).phis, first ≤ phi.index := by
    rw [hat.toLast.phis hx.whole.sound]
    simp
  obtain ⟨f₁, h₁, -⟩ := hstart.jump hx.whole hat.jumps hlast
  -- The variable is read and counted up.
  obtain ⟨⟨_, _, hcourse₁, hmirror₁⟩, i, hlookup, hv⟩ :=
    Beside.readIndex ⟨_, latest, h₁.course, hmirror⟩ hx.whole hx.global hx.find hx.type
      hat.returns.script
  obtain ⟨f₂, h₂, honeValue, hsame₂⟩ :=
    (h₁.recourse hcourse₁).execute hat.constant (.intConst 1) rfl rfl hone
  obtain ⟨f₃, h₃, hnextValue, -⟩ := h₂.execute hat.counts
    (.intArith ((hsame₂ v hne).trans hv) honeValue (by simp)) rfl rfl hnext
  -- Then it is written.
  have hbeside₃ : Beside opened ω last [.read x v, .inst one, .inst next] symbols env f₃ :=
    ⟨_, _, h₃.course, hmirror₁⟩
  obtain ⟨_, _, hcourse₃, hmirror₃⟩ := hbeside₃.replace (n := .int (i + 1)) hx.whole hx.global
    hx.orderly hx.find hat.returns.script hnextValue
  obtain ⟨f₄, h₄, -⟩ := (h₃.recourse hcourse₃).jump hx.whole hat.returns hphis
  exact ⟨i, hlookup, f₄, h₄.leads, ⟨_, _, h₄.course, hmirror₃⟩, h₄.keeps⟩

/-- A round more: the header, the body and what counts the variable up. If the evaluation is given up
after some rounds, the activation has made at least as many steps. -/
theorem count_follows (hx : Indexed ω opened symbols index x) {work : Eval Unit}
    (hhead : LoopHeadAt ω b done x limit v test header body exit)
    (htail : LoopTailAt ω b' done' x v' one next header last exit)
    (htest : first ≤ test.index) (hone : first ≤ one.index) (hnext : first ≤ next.index)
    (hne : v' ≠ one) (hphis : ∀ phi ∈ (ω.builder.info header).phis, first ≤ phi.index)
    (hlimit : limit.index < first)
    (hwork : ∀ {w frame}, Beside opened ω body [] symbols w.vars frame →
      Meaning.Follows S k frame w work fun _ w' after =>
        Arrives opened ω first frame b' done' symbols w'.vars after) :
    ∀ rounds ≤ k, ∀ {w frame}, Beside opened ω header [] symbols w.vars frame →
      frame.value? limit = some (.int bound) →
      Meaning.Follows S rounds frame w (count index bound work rounds) fun _ w' after =>
        Arrives opened ω first frame exit [] symbols w'.vars after := by
  intro rounds
  induction rounds with
  | zero => exact fun _ w frame _ _ => .lasts rfl (lasts_zero frame)
  | succ rounds ih =>
    intro hle w frame hbeside hbound
    obtain ⟨i, hlookup, f₁, ⟨n, hpos, hleads⟩, h₁⟩ :=
      hhead.decides hx htail.toExit htest hbound hbeside S.program
    by_cases hlt : i < bound
    · rw [if_pos hlt] at h₁
      refine Meaning.Follows.congr ?_ (count_again hlookup hlt)
      refine ((Meaning.Follows.bind ((hwork h₁.beside).weaken (by omega)) ?_).step hleads).weaken
        (show rounds + 1 ≤ n + rounds by omega)
      intro _ w₂ f₂ h₂
      -- The variable is counted up, and the rounds that are left follow.
      obtain ⟨j, hlookup₂, f₃, hleads₃, h₃⟩ :=
        htail.goesRound hx hone hnext hne hphis h₂.beside S.program
      have hkeeps : ∀ u : Value, u.index < first → f₃.value? u = frame.value? u := fun u hu =>
        (h₃.keeps u hu).trans ((h₂.keeps u hu).trans (h₁.keeps u hu))
      have hrest := ih (by omega) (w := { w₂ with vars := replace index (.int (j + 1)) w₂.vars })
        h₃.beside ((hkeeps limit hlimit).trans hbound)
      refine .steps hleads₃ (.past (countUp_ok hlookup₂) rfl (hrest.mono ?_))
      exact fun _ w' after h => ⟨h.beside, fun u hu => (h.keeps u hu).trans (hkeeps u hu)⟩
    · rw [if_neg hlt] at h₁
      exact .steps ⟨n, hleads⟩ (.silent (count_done hlookup hlt) rfl h₁)

end

end Abacus.Lowering.Plan
