import Abacus.Proofs.Checked.Views

/-!
# Parts that keep the rules

A part of lowering starts in an open sealed block and ends in one. On the way it ends and seals every
block that it has made, but for the one in which it stops, and leaves the blocks of others as they are.
So the parts can be put into each other, and no demand goes unmet.

* `View.Ready`, `View.Advances` — where a part starts, and what it does;
* `meets_checkedDiv`, `meets_invoke` — divisions and calls;
* `meets_giveBack`, `View.Split`, `View.LoopOpen` and others — what stands between the bodies of
  statements.
-/

namespace Abacus.Lowering.View

open Abacus.Flow (Value Block Ty Inst Terminator Builder Function)

variable {checks : Checked.Checks} {v v' v'' : View}

/-! ## Going on -/

/-- The current block is open and sealed, and nothing is known about blocks that do not exist. -/
structure Ready (v : View) : Prop where
  isOpen : v.Open
  isSealed : v.isSealed v.current = true
  exists' : ∀ i, v.count ≤ i → v.ended i = false ∧ v.isSealed i = false

/-- What a part of lowering does. Its own blocks are the current one and those that it makes. -/
structure Advances (v v' : View) : Prop where
  ready : v'.Ready
  count : v.count ≤ v'.count
  current : v'.current = v.current ∨ v.count ≤ v'.current
  kept : ∀ i, i < v.count → i ≠ v.current →
    v'.ended i = v.ended i ∧ v'.isSealed i = v.isSealed i
  settled : ∀ i, i = v.current ∨ v.count ≤ i → i < v'.count → i ≠ v'.current →
    v'.ended i = true ∧ v'.isSealed i = true
  declared : ∀ x, v.declared x = true → v'.declared x = true

theorem Advances.rfl' (h : v.Ready) : v.Advances v where
  ready := h
  count := Nat.le_refl _
  current := .inl rfl
  kept _ _ _ := ⟨rfl, rfl⟩
  settled i hi hlt hne := by omega
  declared _ := id

theorem Advances.trans (h : v.Advances v') (h' : v'.Advances v'') : v.Advances v'' where
  ready := h'.ready
  count := Nat.le_trans h.count h'.count
  current := by
    rcases h'.current with hsame | hnew
    · rw [hsame]
      exact h.current
    · exact .inr (Nat.le_trans h.count hnew)
  kept i hlt hne := by
    have := h.kept i hlt hne
    have := h'.kept i
    grind [h.current, h.count]
  settled i hi hlt hne := by
    have := h.settled i hi
    have := h'.kept i
    have := h'.settled i
    grind
  declared x hx := h'.declared x (h.declared x hx)

/-- Declaring a variable touches no block. -/
theorem Ready.declare (h : v.Ready) (x : SymbolId) : (v.declare x).Ready :=
  ⟨h.isOpen, h.isSealed, h.exists'⟩

theorem Advances.declare (h : v.Ready) (x : SymbolId) : v.Advances (v.declare x) where
  ready := h.declare x
  count := Nat.le_refl _
  current := .inl rfl
  kept _ _ _ := ⟨rfl, rfl⟩
  settled i hi hlt hne := by grind
  declared y hy := by grind

/-! ## Divisions -/

theorem meets_checkedDiv (config : FaultConfig) (lhs rhs : Value) (hv : v.Ready) :
    Meets (Checked.checkedDiv checks config lhs rhs) (Drafting.checkedDiv config lhs rhs) v
      fun _ v' => v.Advances v' := by
  obtain ⟨⟨hcurrent, hopen⟩, hsealed, hexists⟩ := hv
  unfold Checked.checkedDiv Drafting.checkedDiv
  apply (meets_currentBlock _).know
  apply (meets_newBlock _ _).know
  apply (meets_newBlock _ _).know
  apply (meets_push _ _ (by grind)).step
  intro zero
  apply (meets_push _ _ (by grind)).step
  intro isZero
  apply (meets_terminate (by grind) (by grind [Terminator.successors])).step
  intro _
  apply (meets_sealBlock (by grind)).step
  intro _
  apply (meets_sealBlock (by grind)).step
  intro _
  apply (meets_setCurrent _ _).step
  intro _
  apply (meets_push _ _ (by grind)).step
  intro fault
  apply (meets_terminate (by grind) (by grind [Terminator.successors])).step
  intro _
  apply (meets_setCurrent _ _).step
  intro _
  apply (meets_push _ _ (by grind)).step
  intro quotient
  apply meets_pure
  refine ⟨⟨?_, ?_, ?_⟩, ?_, ?_, ?_, ?_, ?_⟩ <;> grind

/-! ## Calls -/

/-- The view after an end of the current block, both of whose ways on are sealed at once. -/
abbrev fork (v : View) (first second : Block) : View := (v.finish.sealBlock first).sealBlock second

theorem meets_newInvokeSites (v : View) :
    Meets Drafting.newInvokeSites Drafting.newInvokeSites v fun sites v' =>
      sites = ⟨⟨v.count⟩, ⟨v.count + 1⟩, ⟨v.count + 2⟩, ⟨v.count + 3⟩, ⟨v.count + 4⟩, ⟨v.count + 5⟩⟩ ∧
        v' = { v with count := v.count + 6 } := by
  unfold Drafting.newInvokeSites
  apply (meets_newBlock _ _).know
  apply (meets_newBlock _ _).know
  apply (meets_newBlock _ _).know
  apply (meets_newBlock _ _).know
  apply (meets_newBlock _ _).know
  apply (meets_newBlock _ _).know
  exact meets_pure ⟨rfl, rfl⟩

theorem meets_fillLanding (config : FaultConfig) (sites : InvokeSites)
    (hlanding : (v.enter sites.landing).Open) (hcaught : v.isSealed sites.caught.index = false)
    (hfaulted : v.isSealed sites.faulted.index = false)
    (hne : sites.faulted.index ≠ sites.caught.index) :
    Meets (Checked.fillLanding checks config sites) (Drafting.fillLanding config sites) v
      fun _ v' => v' = (v.enter sites.landing).fork sites.caught sites.faulted := by
  unfold Checked.fillLanding Drafting.fillLanding
  apply (meets_setCurrent _ _).step
  intro _
  apply (meets_push _ _ hlanding).step
  intro pad
  apply (meets_push _ _ hlanding).step
  intro selector
  apply (meets_push _ _ hlanding).step
  intro typeId
  apply (meets_push _ _ hlanding).step
  intro isOurs
  apply (meets_terminate hlanding (by grind [Terminator.successors])).step
  intro _
  apply (meets_sealBlock (by grind)).step
  intro _
  apply (meets_sealBlock (by grind)).step
  intro _
  exact meets_pure rfl

theorem meets_fillCaught (sites : InvokeSites) (pad : Value)
    (hcaught : (v.enter sites.caught).Open) :
    Meets (Checked.fillCaught checks sites pad) (Drafting.fillCaught sites pad) v
      fun _ v' => v' = (v.enter sites.caught).finish := by
  unfold Checked.fillCaught Drafting.fillCaught
  apply (meets_setCurrent _ _).step
  intro _
  apply (meets_push _ _ hcaught).step
  intro code
  apply (meets_push _ _ hcaught).step
  intro _
  apply (meets_push _ _ hcaught).step
  intro _
  apply (meets_push _ _ hcaught).step
  intro zero
  exact meets_terminate hcaught (by grind [Terminator.successors])

theorem meets_fillFaulted (sites : InvokeSites) (pad selector : Value)
    (hfaulted : (v.enter sites.faulted).Open)
    (hunexpected : (v.enter sites.unexpected).Open ∧ v.isSealed sites.unexpected.index = false)
    (hcleanup : (v.enter sites.cleanup).Open ∧ v.isSealed sites.cleanup.index = false)
    (hne : [sites.faulted.index, sites.unexpected.index, sites.cleanup.index].Nodup) :
    Meets (Checked.fillFaulted checks sites pad selector) (Drafting.fillFaulted sites pad selector) v
      fun _ v' => v' = ((((v.enter sites.faulted).fork sites.unexpected sites.cleanup).enter
        sites.unexpected).finish.enter sites.cleanup).finish := by
  unfold Checked.fillFaulted Drafting.fillFaulted
  simp only [List.nodup_cons, List.mem_cons, List.not_mem_nil, or_false, not_or] at hne
  apply (meets_setCurrent _ _).step
  intro _
  apply (meets_push _ _ hfaulted).step
  intro zero
  apply (meets_push _ _ hfaulted).step
  intro isForeign
  apply (meets_terminate hfaulted (by grind [Terminator.successors])).step
  intro _
  apply (meets_sealBlock (by grind)).step
  intro _
  apply (meets_sealBlock (by grind)).step
  intro _
  apply (meets_setCurrent _ _).step
  intro _
  apply (meets_push _ _ (by grind)).step
  intro _
  apply (meets_terminate (by grind) (by grind [Terminator.successors])).step
  intro _
  apply (meets_setCurrent _ _).step
  intro _
  exact meets_terminate (by grind) (by grind [Terminator.successors])

theorem meets_invoke (config : FaultConfig) (callee : String) (arguments : List Value)
    (hv : v.Ready) :
    Meets (Checked.invoke checks config callee arguments) (Drafting.invoke config callee arguments) v
      fun _ v' => v.Advances v' := by
  obtain ⟨⟨hcurrent, hopen⟩, hsealed, hexists⟩ := hv
  unfold Checked.invoke Drafting.invoke
  apply (meets_newInvokeSites _).know
  apply (meets_startCall _ _ (by grind) (by grind) (by grind)).step
  intro result
  apply (meets_sealBlock (by grind)).step
  intro _
  apply (meets_sealBlock (by grind)).step
  intro _
  apply (meets_fillLanding _ _ (by grind) (by grind) (by grind) (by grind)).step
  intro ⟨pad, selector⟩
  apply (meets_fillCaught _ _ (by grind)).step
  intro _
  apply (meets_fillFaulted _ _ _ (by grind) (by grind) (by grind) (by grind)).step
  intro _
  apply (meets_setCurrent _ _).step
  intro _
  apply meets_pure
  have hlater : ∀ i, v.count + 6 ≤ i → v.ended i = false ∧ v.isSealed i = false :=
    fun i hi => hexists i (by omega)
  refine ⟨⟨by grind, by grind, fun i hi => ?_⟩, ?_, ?_, ?_, ?_, ?_⟩
  · obtain ⟨hended, hunsealed⟩ := hlater i hi
    constructor <;> grind
  all_goals grind

/-! ## Returns -/

theorem meets_giveBack (u : Value) (hv : v.Ready) :
    Meets (do
        Checked.terminate checks (.ret u)
        let dead ← Drafting.newBlock "after_return"
        Drafting.setCurrent dead
        Checked.sealBlock checks dead)
      (do
        Drafting.terminate (.ret u)
        let dead ← Drafting.newBlock "after_return"
        Drafting.setCurrent dead
        Drafting.sealBlock dead) v fun _ v' => v.Advances v' := by
  obtain ⟨⟨hcurrent, hopen⟩, hsealed, hexists⟩ := hv
  apply (meets_terminate (by grind) (by grind [Terminator.successors])).step
  intro _
  apply (meets_newBlock _ _).know
  apply (meets_setCurrent _ _).step
  intro _
  apply (meets_sealBlock (by grind)).mono
  intro _ v' rfl
  refine ⟨⟨?_, ?_, ?_⟩, ?_, ?_, ?_, ?_, ?_⟩ <;> grind

/-! ## Conditions -/

/-- The view where the first body of a condition starts. -/
abbrev split (v : View) : View :=
  ({ v with count := v.count + 3 }.fork ⟨v.count⟩ ⟨v.count + 1⟩).enter ⟨v.count⟩

theorem Ready.split (hv : v.Ready) : v.split.Ready := by
  obtain ⟨⟨hcurrent, hopen⟩, hsealed, hexists⟩ := hv
  refine ⟨?_, ?_, ?_⟩ <;> grind

theorem meets_split (test : Value) (hv : v.Ready) :
    Meets (do
        let thenBlock ← Drafting.newBlock "if.then"
        let elseBlock ← Drafting.newBlock "if.else"
        let join ← Drafting.newBlock "if.join"
        Checked.terminate checks (.branch test thenBlock elseBlock)
        Checked.sealBlock checks thenBlock
        Checked.sealBlock checks elseBlock
        Drafting.setCurrent thenBlock
        return (elseBlock, join))
      (do
        let thenBlock ← Drafting.newBlock "if.then"
        let elseBlock ← Drafting.newBlock "if.else"
        let join ← Drafting.newBlock "if.join"
        Drafting.terminate (.branch test thenBlock elseBlock)
        Drafting.sealBlock thenBlock
        Drafting.sealBlock elseBlock
        Drafting.setCurrent thenBlock
        return (elseBlock, join)) v
      fun blocks v' => blocks = (⟨v.count + 1⟩, ⟨v.count + 2⟩) ∧ v' = v.split := by
  obtain ⟨⟨hcurrent, hopen⟩, hsealed, hexists⟩ := hv
  apply (meets_newBlock _ _).know
  apply (meets_newBlock _ _).know
  apply (meets_newBlock _ _).know
  apply (meets_terminate (by grind) (by grind [Terminator.successors])).step
  intro _
  apply (meets_sealBlock (by grind)).step
  intro _
  apply (meets_sealBlock (by grind)).step
  intro _
  apply (meets_setCurrent _ _).step
  intro _
  exact meets_pure ⟨rfl, rfl⟩

/-- The view where the second body of a condition starts, behind the first one. -/
abbrev switch (v w : View) : View := w.finish.enter ⟨v.count + 1⟩

section

variable {w : View} (hv : v.Ready) (h : v.split.Advances w)
include hv h

/-- The block in which both bodies meet is still as it was made. -/
theorem Advances.meeting : (w.isSealed (v.count + 2) = false ∧ w.ended (v.count + 2) = false) ∧
    v.count + 2 < w.count := by
  have hcount := h.count
  have hkept := h.kept (v.count + 2)
  obtain ⟨⟨hcurrent, hopen⟩, hsealed, hexists⟩ := hv
  grind

theorem Advances.switch : (v.switch w).Ready := by
  have hcount := h.count
  have hwhere := h.current
  have hkept := h.kept (v.count + 1)
  obtain ⟨⟨hcurrent, hopen⟩, hsealed, hexists⟩ := hv
  obtain ⟨⟨hcurrent', hopen'⟩, hsealed', hexists'⟩ := h.ready
  refine ⟨?_, ?_, ?_⟩ <;> grind

variable {u : View} (h' : (v.switch w).Advances u)
include h'

theorem Advances.meetingAgain :
    (u.isSealed (v.count + 2) = false ∧ u.ended (v.count + 2) = false) ∧ v.count + 2 < u.count := by
  obtain ⟨⟨hunsealed, hopen⟩, hlt⟩ := h.meeting hv
  have hcount := h'.count
  have hkept := h'.kept (v.count + 2)
  have hwhere := h.current
  grind

/-- Behind a condition every block is settled but the one in which both bodies meet. -/
theorem Advances.join : v.Advances ((u.finish.sealBlock ⟨v.count + 2⟩).enter ⟨v.count + 2⟩) := by
  obtain ⟨⟨hunsealed, hopen⟩, hlt⟩ := h.meetingAgain hv h'
  have hready := h'.ready
  have hdeclared : ∀ x, v.declared x = true → u.declared x = true := by
    intro x hx
    exact h'.declared x (h.declared x hx)
  obtain ⟨⟨hcurrent₀, hopen₀⟩, hsealed₀, hexists₀⟩ := hv
  obtain ⟨⟨hcurrent₁, hopen₁⟩, hsealed₁, hexists₁⟩ := h.ready
  obtain ⟨⟨hcurrent₂, hopen₂⟩, hsealed₂, hexists₂⟩ := h'.ready
  have hwhere := h.current
  have hwhere' := h'.current
  have hcount := h.count
  have hcount' := h'.count
  refine ⟨⟨by grind, by grind, fun i hi => ?_⟩, by grind, by grind, fun i hi hne => ?_,
    fun i hi hlt hne => ?_, hdeclared⟩
  · have := hexists₂ i hi
    grind
  · have := h.kept i
    have := h'.kept i
    grind
  · have := h.kept i
    have := h.settled i
    have := h'.kept i
    have := h'.settled i
    grind

end

/-! ## Loops -/

/-- The view where the body of a loop starts. -/
abbrev loopHead (v : View) : View :=
  ((({ v with count := v.count + 4 }.finish.enter ⟨v.count⟩).finish).sealBlock ⟨v.count + 1⟩).enter
    ⟨v.count + 1⟩

theorem Ready.loopHead (hv : v.Ready) : v.loopHead.Ready := by
  obtain ⟨⟨hcurrent, hopen⟩, hsealed, hexists⟩ := hv
  refine ⟨?_, ?_, ?_⟩ <;> grind

theorem meets_loopHead {x : SymbolId} (bound : Value) (hv : v.Ready) (hx : v.declared x = true) :
    Meets (do
        let header ← Drafting.newBlock "for.header"
        let bodyBlock ← Drafting.newBlock "for.body"
        let bodyEnd ← Drafting.newBlock "for.body_end"
        let exit ← Drafting.newBlock "for.end"
        Checked.terminate checks (.jump header)
        Drafting.setCurrent header
        let current ← Checked.read checks x header
        let inRange ← Checked.push checks (.intCompare .less current bound) .bool
        Checked.terminate checks (.branch inRange bodyBlock exit)
        Checked.sealBlock checks bodyBlock
        Drafting.setCurrent bodyBlock
        return (header, bodyEnd, exit))
      (do
        let header ← Drafting.newBlock "for.header"
        let bodyBlock ← Drafting.newBlock "for.body"
        let bodyEnd ← Drafting.newBlock "for.body_end"
        let exit ← Drafting.newBlock "for.end"
        Drafting.terminate (.jump header)
        Drafting.setCurrent header
        let current ← Drafting.read x header
        let inRange ← Drafting.emit (.intCompare .less current bound) .bool
        Drafting.terminate (.branch inRange bodyBlock exit)
        Drafting.sealBlock bodyBlock
        Drafting.setCurrent bodyBlock
        return (header, bodyEnd, exit)) v
      fun blocks v' => blocks = (⟨v.count⟩, ⟨v.count + 2⟩, ⟨v.count + 3⟩) ∧ v' = v.loopHead := by
  obtain ⟨⟨hcurrent, hopen⟩, hsealed, hexists⟩ := hv
  apply (meets_newBlock _ _).know
  apply (meets_newBlock _ _).know
  apply (meets_newBlock _ _).know
  apply (meets_newBlock _ _).know
  apply (meets_terminate (by grind) (by grind [Terminator.successors])).step
  intro _
  apply (meets_setCurrent _ _).step
  intro _
  apply (meets_read _ (by exact hx)).step
  intro current
  apply (meets_push _ _ (by grind)).step
  intro inRange
  apply (meets_terminate (by grind) (by grind [Terminator.successors])).step
  intro _
  apply (meets_sealBlock (by grind)).step
  intro _
  apply (meets_setCurrent _ _).step
  intro _
  exact meets_pure ⟨rfl, rfl⟩

/-- The view behind a loop whose body has stopped in `w`. -/
abbrev loopTail (v w : View) : View :=
  ((((w.finish.sealBlock ⟨v.count + 2⟩).enter ⟨v.count + 2⟩).finish.sealBlock ⟨v.count⟩).sealBlock
    ⟨v.count + 3⟩).enter ⟨v.count + 3⟩

section

variable {w : View} (hv : v.Ready) (h : v.loopHead.Advances w)
include hv h

/-- The header has its end, but is not sealed; the blocks behind the body are as they were made. -/
theorem Advances.around : w.isSealed v.count = false ∧
    (w.isSealed (v.count + 2) = false ∧ w.ended (v.count + 2) = false) ∧
    (w.isSealed (v.count + 3) = false ∧ w.ended (v.count + 3) = false) ∧ v.count + 3 < w.count := by
  have hcount := h.count
  have hheader := h.kept v.count
  have hbodyEnd := h.kept (v.count + 2)
  have hexit := h.kept (v.count + 3)
  obtain ⟨⟨hcurrent, hopen⟩, hsealed, hexists⟩ := hv
  grind

theorem meets_loopTail {x : SymbolId} (hx : v.declared x = true) :
    Meets (do
        Checked.sealBlock checks ⟨v.count + 2⟩
        Drafting.setCurrent ⟨v.count + 2⟩
        let current ← Checked.read checks x ⟨v.count + 2⟩
        let one ← Checked.push checks (.intConst 1) .int
        let next ← Checked.push checks (.intArith .add current one) .int
        Checked.terminate checks (.jump ⟨v.count⟩)
        Drafting.write x ⟨v.count + 2⟩ next
        Checked.sealBlock checks ⟨v.count⟩
        Checked.sealBlock checks ⟨v.count + 3⟩
        Drafting.setCurrent ⟨v.count + 3⟩)
      (do
        Drafting.sealBlock ⟨v.count + 2⟩
        Drafting.setCurrent ⟨v.count + 2⟩
        let current ← Drafting.read x ⟨v.count + 2⟩
        let one ← Drafting.emit (.intConst 1) .int
        let next ← Drafting.emit (.intArith .add current one) .int
        Drafting.terminate (.jump ⟨v.count⟩)
        Drafting.write x ⟨v.count + 2⟩ next
        Drafting.sealBlock ⟨v.count⟩
        Drafting.sealBlock ⟨v.count + 3⟩
        Drafting.setCurrent ⟨v.count + 3⟩) w.finish fun _ v' => v' = v.loopTail w := by
  obtain ⟨hheader, ⟨hbodyEnd, hopenEnd⟩, ⟨hexit, hopenExit⟩, hlt⟩ := h.around hv
  have hwhere := h.current
  have hdeclared := h.declared x hx
  obtain ⟨⟨hcurrent, hopen⟩, hsealed, hexists⟩ := hv
  apply (meets_sealBlock (by grind)).step
  intro _
  apply (meets_setCurrent _ _).step
  intro _
  apply (meets_read _ (by exact hdeclared)).step
  intro current
  apply (meets_push _ _ (by grind)).step
  intro one
  apply (meets_push _ _ (by grind)).step
  intro next
  apply (meets_terminate (by grind) (by grind [Terminator.successors])).step
  intro _
  apply (meets_write _ _ _ _).step
  intro _
  apply (meets_sealBlock (by grind)).step
  intro _
  apply (meets_sealBlock (by grind)).step
  intro _
  exact meets_setCurrent _ _

/-- Behind a loop every block is settled but the one in which it goes on. -/
theorem Advances.loop : v.Advances (v.loopTail w) := by
  obtain ⟨hheader, ⟨hbodyEnd, hopenEnd⟩, ⟨hexit, hopenExit⟩, hlt⟩ := h.around hv
  have hwhere := h.current
  have hcount := h.count
  obtain ⟨⟨hcurrent, hopen⟩, hsealed, hexists⟩ := hv
  obtain ⟨⟨hcurrent₁, hopen₁⟩, hsealed₁, hexists₁⟩ := h.ready
  refine ⟨⟨by grind, by grind, fun i hi => ?_⟩, by grind, by grind, fun i hi hne => ?_,
    fun i hi hlt hne => ?_, h.declared⟩
  · have := hexists₁ i hi
    grind
  · have := h.kept i
    grind
  · have := h.kept i
    have := h.settled i
    grind

end

end Abacus.Lowering.View
