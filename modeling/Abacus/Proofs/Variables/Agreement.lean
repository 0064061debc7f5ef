import Abacus.Proofs.Variables.Matching

/-!
# The list and the recursion agree

`Drafting.read` and `Drafting.sealBlock` keep a list of the phis that need operands; `Recursive.read` and
`Recursive.sealBlock` say the same by recursion. Both go through the stages of one search, and that does
not depend on an order. So they end with corresponding drafts, or both come to a variable without a type.

* `Draft.Reaches` — what a search comes to;
* `Goes.both` — two searches for the same things;
* `Draft.Agree` — two pieces of work that end in the same way;
* `Recursive.read_and_seal_agree` — reads and sealings.
-/

namespace Abacus.Lowering

open Abacus.Flow (Value Block Ty Inst Terminator Builder BlockInfo ValueInfo)

/-! ## Two searches for the same things -/

/-- What a search comes to that asks for the variables and blocks of `S`. -/
def Draft.Reaches (d : Draft) (S : SymbolId → Block → Prop) (x : SymbolId) (c : Block) : Prop :=
  ∃ b, S x b ∧ d.Visits x b c

section

variable {α : Type} {S : SymbolId → Block → Prop} {d d₁ : Draft} {jobs made : List OpenPhi}
  {log : List Task} {Q : α → Draft → Prop} {work₁ work₂ : Drafting α}

theorem search_reaches (hstanding : d.Standing) (hacyclic : d.Acyclic)
    (hserved : ∀ p ∈ jobs, ∀ q ∈ d.builder.preds p.block, S p.var q)
    (hjobs : ∀ p ∈ jobs, p.phi.index < d.builder.valueCount) : Search (d.Reaches S) d jobs where
  closed := by
    rintro x c q ⟨b, hb, hvisits⟩ hnone hsealed hq
    exact ⟨b, hb, hvisits.back hnone hsealed hq⟩
  served p hp q hq := ⟨q, hserved p hp q hq, .start q⟩
  numbered := hjobs
  preds := hstanding.preds
  acyclic := hacyclic

theorem Stage.isSome_of_reaches (h : Stage (d.Reaches S) d jobs made log [] d₁)
    (hstarts : ∀ x b, S x b → (d₁.known.value? x b).isSome) (x : SymbolId) (c : Block)
    (hc : d.Reaches S x c) : (d₁.known.value? x c).isSome := by
  obtain ⟨b, hb, hvisits⟩ := hc
  exact h.isSome_of_visits hvisits (hstarts x b hb)

/-- A search that has come everywhere has found types for all phis. -/
theorem Stage.not_untyped {P : SymbolId → Block → Prop} (h : Stage P d jobs made log [] d₁)
    (hall : ∀ x c, P x c → (d₁.known.value? x c).isSome) : ¬ Untyped P d := by
  rintro ⟨x, c, hP, hstop, htype⟩
  obtain ⟨v, hv⟩ := Option.isSome_iff_exists.1 (hall x c hP)
  obtain ⟨ty, hty, -⟩ := h.outline.new _ (h.mem_of_stop hstop hv)
  rw [htype] at hty
  cases hty

/-- Two searches for the same things both succeed, or both come to a variable without a type. -/
theorem Goes.both (hstanding : d.Standing)
    (hjobs : ∀ p ∈ jobs, p.phi.index < d.builder.valueCount)
    (hstarts : ∀ {a d' made log}, Stage (d.Reaches S) d jobs made log [] d' → Q a d' →
      ∀ x b, S x b → (d'.known.value? x b).isSome)
    (h₁ : Goes (d.Reaches S) d work₁ d fun a d' =>
      (∃ made log, Stage (d.Reaches S) d jobs made log [] d') ∧ Q a d')
    (h₂ : Goes (d.Reaches S) d work₂ d fun a d' =>
      (∃ made log, Stage (d.Reaches S) d jobs made log [] d') ∧ Q a d') :
    (∃ a₁ d₁ a₂ d₂ ρ, work₁.on d = (.ok a₁, d₁) ∧ work₂.on d = (.ok a₂, d₂) ∧ Q a₁ d₁ ∧ Q a₂ d₂ ∧
        d.Corresponds ρ d₁ d₂) ∨
      ∃ e₁ d₁ e₂ d₂, work₁.on d = (.error e₁, d₁) ∧ work₂.on d = (.error e₂, d₂) ∧
        Untyped (d.Reaches S) d := by
  unfold Goes at h₁ h₂
  rcases hon₁ : work₁.on d with ⟨e₁ | a₁, d₁⟩ <;> rcases hon₂ : work₂.on d with ⟨e₂ | a₂, d₂⟩ <;>
    rw [hon₁] at h₁ <;> rw [hon₂] at h₂
  case error.error => exact .inr ⟨e₁, d₁, e₂, d₂, rfl, rfl, h₁⟩
  case error.ok =>
    obtain ⟨⟨made, log, h⟩, hQ⟩ := h₂
    exact absurd h₁ (h.not_untyped (h.isSome_of_reaches (hstarts h hQ)))
  case ok.error =>
    obtain ⟨⟨made, log, h⟩, hQ⟩ := h₁
    exact absurd h₂ (h.not_untyped (h.isSome_of_reaches (hstarts h hQ)))
  case ok.ok =>
    obtain ⟨⟨made₁, log₁, h₁⟩, hQ₁⟩ := h₁
    obtain ⟨⟨made₂, log₂, h₂⟩, hQ₂⟩ := h₂
    obtain ⟨ρ, hρ⟩ := h₁.corresponds h₂ hstanding hjobs
      (h₁.isSome_of_reaches (hstarts h₁ hQ₁)) (h₂.isSome_of_reaches (hstarts h₂ hQ₂))
    exact .inl ⟨a₁, d₁, a₂, d₂, ρ, rfl, rfl, hQ₁, hQ₂, hρ⟩

end

/-- Two pieces of work on a draft end in the same way, with results that `move` renumbers. When they
fail, they fail for the same reason and have done nothing, provided that each phi that waits stands for
a variable with a type. -/
inductive Draft.Agree {α : Type} (d : Draft) (move : Equiv.Perm Value → α → α) :
    Except LoweringError α × Draft → Except LoweringError α × Draft → Prop
  | ends {ρ a d₁ d₂} : d.Corresponds ρ d₁ d₂ → Agree d move (.ok a, d₁) (.ok (move ρ a), d₂)
  | fails {e₁ e₂ d₁ d₂} : ((∀ p ∈ d.known.incomplete, (d.known.type? p.var).isSome) →
      e₁ = e₂ ∧ d₁ = d ∧ d₂ = d) → Agree d move (.error e₁, d₁) (.error e₂, d₂)

namespace Drafting

variable {d : Draft} {x : SymbolId} {b : Block}

theorem on_fillAll_nil (d : Draft) : on (fillAll []) d = (.ok (), d) := by
  have hfill : ∀ rounds, fill rounds [] = pure () := by
    intro rounds
    cases rounds <;> rfl
  unfold fillAll
  rw [on_bind, on_get]
  simp only [hfill, on_pure]

/-- A variable without a type has a value only where a walk leads to one. -/
theorem on_read_untyped (htype : d.known.type? x = none) :
    on (read x b) d = match d.walkFrom x b with
      | (gone, .bound v) => (.ok v, d.bindAll x gone v)
      | (_, .unsealed stop) => (.error (.ofDefect (.undeclared x stop)), d)
      | (_, .merge stop) => (.error (.ofDefect (.undeclared x stop)), d)
      | (_, .endless) => (.error (.ofDefect (.endless x b)), d) := by
  unfold read
  rw [on_bind, on_resolve]
  rcases d.walkFrom x b with ⟨gone, v | stop | stop | _⟩
  · simp only [on_bind, on_fillAll_nil, on_pure]
  · simp only [htype]
  · simp only [htype]
  · rfl

theorem on_sealBlock (d : Draft) (b : Block) :
    on (sealBlock b) d = if d.known.isSealed b then (.error (.ofDefect (.sealedTwice b)), d) else
      match on (fillAll (d.known.incompleteOf b).reverse) (release d b) with
      | (.ok _, d') => (.ok (), close d' b)
      | (.error e, d') => (.error e, d') := by
  unfold sealBlock
  rw [on_bind, on_get]
  cases hsealed : d.known.isSealed b with
  | true => simp [hsealed]
  | false =>
    simp only [hsealed, Bool.false_eq_true, if_false, on_bind, on_note]
    unfold release close
    split
    · next hfill => rw [hfill]
    · next hfill => rw [hfill]

end Drafting

namespace Recursive

open Drafting (on on_bind on_get on_throw on_note)

variable {d : Draft} {x : SymbolId} {b : Block}

theorem on_newPhi_untyped (htype : d.known.type? x = none) :
    on (Drafting.newPhi x b) d = (.error (.ofDefect (.undeclared x b)), d) := by
  rw [Drafting.on_newPhi, htype]

/-- The recursion comes to the end of the walk, too. -/
theorem on_read_untyped (htype : d.known.type? x = none) {n depth : Nat} {gone : List Block}
    {stop : Block} (hwalk : d.walk x n b = (gone, .unsealed stop) ∨ d.walk x n b = (gone, .merge stop))
    (hdepth : n ≤ depth) :
    on (read depth x b) d = (.error (.ofDefect (.undeclared x stop)), d) := by
  induction n generalizing b gone depth with
  | zero => rcases hwalk with hwalk | hwalk <;> cases hwalk
  | succ n ih =>
    cases depth with
    | zero => cases hdepth
    | succ depth =>
      rw [Draft.walk] at hwalk
      rw [read, on_bind, on_get]
      cases hnone : d.known.value? x b with
      | some v =>
        simp only [hnone] at hwalk
        rcases hwalk with hwalk | hwalk <;> cases hwalk
      | none =>
        simp only [hnone] at hwalk ⊢
        cases hsealed : d.known.isSealed b with
        | false =>
          simp only [hsealed, Bool.false_eq_true, if_false] at hwalk ⊢
          rcases hwalk with hwalk | hwalk <;> cases hwalk
          rw [on_bind, on_newPhi_untyped htype]
        | true =>
          simp only [hsealed, if_true] at hwalk ⊢
          split
          · next q hq =>
            simp only [hq] at hwalk
            rcases hrest : d.walk x n q with ⟨gone', stop'⟩
            rw [hrest] at hwalk
            have hend : d.walk x n q = (gone', .unsealed stop) ∨ d.walk x n q = (gone', .merge stop) := by
              rcases hwalk with hwalk | hwalk
              · cases hwalk
                exact .inl hrest
              · cases hwalk
                exact .inr hrest
            rw [on_bind, ih hend (Nat.le_of_succ_le_succ hdepth)]
          · next hmerge =>
            simp only at hwalk
            rcases hwalk with hwalk | hwalk <;> cases hwalk
            rw [on_bind, on_newPhi_untyped htype]

theorem on_sealBlock (depth : Nat) (d : Draft) (b : Block) :
    on (sealBlock depth b) d =
      if d.known.isSealed b then (.error (.ofDefect (.sealedTwice b)), d) else
        match on ((d.known.incompleteOf b).forM fun p =>
            giveOperands (read depth) p ((Drafting.release d b).builder.preds p.block))
          (Drafting.release d b) with
        | (.ok _, d') => (.ok (), Drafting.close d' b)
        | (.error e, d') => (.error e, d') := by
  unfold sealBlock
  rw [on_bind, on_get]
  cases hsealed : d.known.isSealed b with
  | true => simp [hsealed]
  | false =>
    simp only [hsealed, Bool.false_eq_true, if_false, on_bind, on_note]
    unfold Drafting.release Drafting.close
    split
    · next hfill => rw [hfill]
    · next hfill => rw [hfill]

theorem read_agrees (hstanding : d.Standing) (hacyclic : d.Acyclic) {depth : Nat}
    (hdepth : depthBound d ≤ depth) (x : SymbolId) (b : Block) :
    d.Agree (fun ρ v => ρ v) (on (Drafting.read x b) d) (on (read depth x b) d) := by
  let S : SymbolId → Block → Prop := fun y c => y = x ∧ c = b
  have hS : Search (d.Reaches S) d [] :=
    search_reaches hstanding hacyclic (by simp) (by simp)
  have hP : d.Reaches S x b := ⟨b, ⟨rfl, rfl⟩, .start b⟩
  have hlist := Drafting.goes_read hS hP
  have hrecursion : Goes (d.Reaches S) d (read depth x b) d fun v d' =>
      (∃ made log, Stage (d.Reaches S) d [] made log [] d') ∧ d'.known.value? x b = some v := by
    refine (goes_read_of_depthBound (Stage.start _ d []) hS hP hdepth).mono ?_
    intro v d' hpost
    obtain ⟨hstage, hvalue, -⟩ := hpost
    exact ⟨hstage, hvalue⟩
  have hstarts : ∀ {v d' made log}, Stage (d.Reaches S) d [] made log [] d' →
      d'.known.value? x b = some v → ∀ y c, S y c → (d'.known.value? y c).isSome := by
    rintro v d' made log - hvalue y c ⟨rfl, rfl⟩
    rw [hvalue]
    rfl
  rcases Goes.both hstanding (by simp) hstarts hlist hrecursion with
    ⟨v, d₁, w, d₂, ρ, hon₁, hon₂, hv, hw, hρ⟩ | ⟨e₁, d₁, e₂, d₂, hon₁, hon₂, huntyped⟩
  · have hwv : w = ρ v := by
      have hvalue := hρ.value x b
      rw [hv, hw] at hvalue
      exact Option.some.inj hvalue
    rw [hon₁, hon₂, hwv]
    exact .ends hρ
  · -- No phi has been made, since there is no type for one.
    obtain ⟨y, c, ⟨start, ⟨rfl, rfl⟩, -⟩, -, htype⟩ := huntyped
    rw [hon₁, hon₂]
    refine .fails fun _ => ?_
    have hread := Drafting.on_read_untyped (b := start) htype
    have hn : d.builder.blockCount + 1 ≤ depth := by
      unfold depthBound at hdepth
      exact Nat.le_trans (Nat.le_mul_of_pos_right _ (by omega)) hdepth
    rcases hwalk : d.walkFrom y start with ⟨gone, v | stop | stop | _⟩ <;>
      rw [hwalk, hon₁] at hread
    case bound => cases hread
    case endless => exact absurd (by rw [hwalk]) (Draft.walkFrom_ends hacyclic y start)
    case unsealed =>
      have hrecursive := on_read_untyped htype (.inl hwalk) hn
      rw [hon₂] at hrecursive
      cases hread
      cases hrecursive
      exact ⟨rfl, rfl, rfl⟩
    case merge =>
      have hrecursive := on_read_untyped htype (.inr hwalk) hn
      rw [hon₂] at hrecursive
      cases hread
      cases hrecursive
      exact ⟨rfl, rfl, rfl⟩

/-- Sealing a block of both drafts changes nothing about what corresponds. -/
theorem corresponds_close {ρ : Equiv.Perm Value} {d₁ d₂ : Draft} (b : Block)
    (h : (Drafting.release d b).Corresponds ρ d₁ d₂) :
    d.Corresponds ρ (Drafting.close d₁ b) (Drafting.close d₂ b) := by
  obtain ⟨old, new₁, new₂, h₁, h₂, hperm, hold⟩ := h.incomplete
  have hsealed : (Drafting.close d₂ b).known.sealedBlocks =
      (Drafting.close d₁ b).known.sealedBlocks := by
    show d₂.known.sealedBlocks.insert b = d₁.known.sealedBlocks.insert b
    rw [h.sealedBlocks]
  exact { h with
    incomplete := ⟨old, new₁, new₂, h₁, h₂, hperm, fun p hp => List.mem_of_mem_filter (hold p hp)⟩
    sealedBlocks := hsealed }

/-- Phis get corresponding operands in whatever order their turns come, or one of their variables has
no type. -/
theorem fillAll_both (hstanding : d.Standing) (hacyclic : d.Acyclic) {depth : Nat}
    (hdepth : depthBound d ≤ depth) {jobs order : List OpenPhi} (hperm : order.Perm jobs)
    (hnodup : (order.map OpenPhi.phi).Nodup)
    (hjobs : ∀ p ∈ jobs, p.phi.index < d.builder.valueCount) :
    (∃ d₁ d₂ ρ, on (Drafting.fillAll jobs) d = (.ok (), d₁) ∧
        on (order.forM fun p => giveOperands (read depth) p (d.builder.preds p.block)) d =
          (.ok (), d₂) ∧ d.Corresponds ρ d₁ d₂) ∨
      ∃ e₁ d₁ e₂ d₂, on (Drafting.fillAll jobs) d = (.error e₁, d₁) ∧
        on (order.forM fun p => giveOperands (read depth) p (d.builder.preds p.block)) d =
          (.error e₂, d₂) ∧ ∃ p ∈ jobs, d.known.type? p.var = none := by
  let S : SymbolId → Block → Prop := fun y c => ∃ p ∈ jobs, p.var = y ∧ c ∈ d.builder.preds p.block
  have hS : Search (d.Reaches S) d jobs :=
    search_reaches hstanding hacyclic (fun p hp q hq => ⟨p, hp, rfl, hq⟩) hjobs
  have hS' : Search (d.Reaches S) d order :=
    search_reaches hstanding hacyclic (fun p hp q hq => ⟨p, hperm.mem_iff.1 hp, rfl, hq⟩)
      fun p hp => hjobs p (hperm.mem_iff.1 hp)
  have hstarts : ∀ {d' made log}, Stage (d.Reaches S) d jobs made log [] d' →
      ∀ y c, S y c → (d'.known.value? y c).isSome := by
    intro d' made log h y c hpost
    obtain ⟨p, hp, rfl, hc⟩ := hpost
    exact h.isSome_of_mem (.inl hp) hc
  have hlist : Goes (d.Reaches S) d (Drafting.fillAll jobs) d fun _ d' =>
      (∃ made log, Stage (d.Reaches S) d jobs made log [] d') ∧
        ∀ y c, S y c → (d'.known.value? y c).isSome := by
    refine (Drafting.goes_fillAll (Stage.start _ d jobs) hS).mono ?_
    rintro ⟨⟩ d' ⟨⟨made, log, h⟩, -⟩
    exact ⟨⟨made, log, h⟩, hstarts h⟩
  have hrecursion : Goes (d.Reaches S) d (order.forM fun p =>
      giveOperands (read depth) p (d.builder.preds p.block)) d fun _ d' =>
      (∃ made log, Stage (d.Reaches S) d jobs made log [] d') ∧
        ∀ y c, S y c → (d'.known.value? y c).isSome := by
    refine (goes_giveAll (Stage.start _ d order) hS' hdepth).mono ?_
    rintro ⟨⟩ d' ⟨made, log, h⟩
    have h' := h.reorder hperm hnodup
    exact ⟨⟨made, log, h'⟩, hstarts h'⟩
  rcases Goes.both hstanding hjobs (fun _ h => h) hlist hrecursion with
    ⟨⟨⟩, d₁, ⟨⟩, d₂, ρ, hon₁, hon₂, -, -, hρ⟩ | ⟨e₁, d₁, e₂, d₂, hon₁, hon₂, huntyped⟩
  · exact .inl ⟨d₁, d₂, ρ, hon₁, hon₂, hρ⟩
  · obtain ⟨y, c, ⟨start, ⟨p, hp, rfl, -⟩, -⟩, -, htype⟩ := huntyped
    exact .inr ⟨e₁, d₁, e₂, d₂, hon₁, hon₂, p, hp, htype⟩

theorem sealBlock_agrees (hstanding : d.Standing) (hacyclic : d.Acyclic) {depth : Nat}
    (hdepth : depthBound d ≤ depth) (b : Block) :
    d.Agree (fun _ u => u) (on (Drafting.sealBlock b) d) (on (sealBlock depth b) d) := by
  have hfilter : ∀ p : OpenPhi → Bool, ((d.known.incomplete.filter p).map OpenPhi.phi).Nodup :=
    fun p => hstanding.apart.sublist (List.filter_sublist.map _)
  have hreleased : (Drafting.release d b).Standing := ⟨hstanding.preds, hstanding.bound,
    fun p hp => hstanding.waiting p (List.mem_of_mem_filter hp), hfilter _⟩
  have hjobs : ∀ p ∈ (d.known.incompleteOf b).reverse, p ∈ d.known.incomplete := fun p hp =>
    List.mem_of_mem_filter (List.mem_reverse.1 hp)
  rw [Drafting.on_sealBlock, on_sealBlock]
  split
  · exact .fails fun _ => ⟨rfl, rfl, rfl⟩
  · have horder := (List.reverse_perm (d.known.incompleteOf b)).symm
    rcases fillAll_both hreleased hacyclic hdepth horder (hfilter _)
        fun p hp => hstanding.waiting p (hjobs p hp) with
      ⟨d₁, d₂, ρ, hon₁, hon₂, hρ⟩ | ⟨e₁, d₁, e₂, d₂, hon₁, hon₂, p, hp, htype⟩
    · rw [hon₁, hon₂]
      exact .ends (corresponds_close b hρ)
    · rw [hon₁, hon₂]
      refine .fails fun htyped => ?_
      have hsome := htyped p (hjobs p hp)
      have hnone : d.known.type? p.var = none := htype
      rw [hnone] at hsome
      cases hsome

/-- The search with a list and the recursion agree: a read and the sealing of a block leave the same
behind, up to the numbers of the phis that are new and their order, and fail alike. -/
theorem read_and_seal_agree {d : Draft} (hstanding : d.Standing) (hacyclic : d.Acyclic) {depth : Nat}
    (hdepth : depthBound d ≤ depth) :
    (∀ x b, d.Agree (fun ρ v => ρ v) (on (Drafting.read x b) d) (on (read depth x b) d)) ∧
      ∀ b, d.Agree (fun _ u => u) (on (Drafting.sealBlock b) d) (on (sealBlock depth b) d) :=
  ⟨read_agrees hstanding hacyclic hdepth, sealBlock_agrees hstanding hacyclic hdepth⟩

/-- A loop of two blocks. The phi of the first waits for its block to be sealed. -/
def loop : Draft :=
  let x : SymbolId := ⟨0⟩
  let entry : BlockInfo := ⟨"entry", [], #[⟨0⟩], some (.jump ⟨1⟩), []⟩
  let head : BlockInfo := ⟨"head", [⟨1⟩], #[], some (.jump ⟨2⟩), [⟨0⟩, ⟨2⟩]⟩
  let body : BlockInfo := ⟨"body", [], #[], some (.jump ⟨1⟩), [⟨1⟩]⟩
  let values : Array ValueInfo := #[⟨.int, .param 0, ⟨0⟩⟩, ⟨.int, .phi [], ⟨1⟩⟩]
  let known := ((Variables.empty.declare x .int).write x ⟨0⟩ ⟨0⟩).write x ⟨1⟩ ⟨1⟩
  Drafting.close (Drafting.close
    ⟨⟨⟨"loop", [.int], .int, #[entry, head, body], values⟩, ⟨2⟩⟩,
      { known.own ⟨1⟩ x with incomplete := [⟨x, ⟨1⟩, ⟨1⟩⟩] }⟩ ⟨0⟩) ⟨2⟩

theorem preds_loop {c q : Block} (h : q ∈ loop.builder.preds c) :
    q.index < 3 ∧ (c = ⟨1⟩ ∧ (q = ⟨0⟩ ∨ q = ⟨2⟩) ∨ c = ⟨2⟩ ∧ q = ⟨1⟩) := by
  obtain ⟨i⟩ := c
  match i with
  | 0 => cases h
  | 1 =>
    have hq : q ∈ [(⟨0⟩ : Block), ⟨2⟩] := h
    simp only [List.mem_cons, List.not_mem_nil, or_false] at hq
    rcases hq with rfl | rfl <;> simp
  | 2 =>
    have hq : q ∈ [(⟨1⟩ : Block)] := h
    rw [List.mem_singleton.1 hq]
    simp
  | i + 3 =>
    rw [Builder.preds_of_le (show loop.builder.blockCount ≤ i + 3 from Nat.le_add_left 3 i)] at h
    cases h

theorem standing_loop : loop.Standing where
  preds h := (preds_loop h).1
  bound {x c v} h := by
    have hvalue : loop.known.value? x c = if x = ⟨0⟩ ∧ c = ⟨1⟩ then some ⟨1⟩ else
        if x = ⟨0⟩ ∧ c = ⟨0⟩ then some ⟨0⟩ else Variables.empty.value? x c := by
      rw [← Variables.value?_write_eq, ← Variables.value?_write_eq]
      rfl
    have hempty : Variables.empty.value? x c = none := rfl
    rw [hvalue, hempty] at h
    split at h
    · cases h
      decide
    · split at h
      · cases h
        decide
      · cases h
  waiting p hp := by
    have hp' : p ∈ [(⟨⟨0⟩, ⟨1⟩, ⟨1⟩⟩ : OpenPhi)] := hp
    rw [List.mem_singleton.1 hp']
    decide
  apart := List.nodup_singleton _

/-- The second block is the only one with a single predecessor. -/
theorem acyclic_loop : loop.Acyclic := by
  have hsteps : ∀ {c q}, loop.StepsBack c q → c = ⟨2⟩ ∧ q = ⟨1⟩ := by
    intro c q h
    obtain ⟨-, hpreds⟩ := h
    have hq : q ∈ loop.builder.preds c := by simp [hpreds]
    rcases (preds_loop hq).2 with ⟨rfl, -⟩ | hbody
    · cases hpreds
    · exact hbody
  intro b hcycle
  obtain ⟨_, hfirst, -⟩ := Relation.TransGen.head'_iff.1 hcycle
  obtain ⟨_, -, hlast⟩ := Relation.TransGen.tail'_iff.1 hcycle
  have hsame := (hsteps hfirst).1.symm.trans (hsteps hlast).2
  cases hsame

/-- Both ways give the waiting phi of the loop its operands. -/
theorem read_and_seal_agree_loop : loop.Standing ∧ loop.Acyclic ∧ depthBound loop ≤ 20 ∧
    (∀ x b, loop.Agree (fun ρ v => ρ v) (on (Drafting.read x b) loop) (on (read 20 x b) loop)) ∧
      ∀ b, loop.Agree (fun _ u => u) (on (Drafting.sealBlock b) loop) (on (sealBlock 20 b) loop) :=
  ⟨standing_loop, acyclic_loop, by decide,
    read_and_seal_agree standing_loop acyclic_loop (by decide)⟩

end Recursive

end Abacus.Lowering
