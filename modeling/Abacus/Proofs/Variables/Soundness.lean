import Abacus.Proofs.Variables.Recording

/-!
# What holds after every step

`Recording.Sound` joins the bookkeeping of phis with what has been recorded: what a variable has at
the end of a block is what was written there last, or what it has on entering the block; a value
that was read is the one written last before, or what the variable has on entering the block; and
every phi stands for a variable that is read later on, with no write on the way.

* `Sound.builds` — a step of the builder keeps it;
* `Sound.write` — a write keeps it, as long as nothing has been resolved through the block;
* `Sound.searched` — a search keeps it, which covers reading and sealing;
* `Sound.step`, `Sound.run` — every step does, and so every run.
-/

namespace Abacus.Lowering

open Abacus.Flow (Value Block Ty Inst Terminator Builder BlockInfo ValueInfo)

namespace Recording

/-- The value that a variable has on entering a block. If it comes from the only predecessor, the
variable has been resolved through that. -/
inductive Enters (R : Recording) (x : SymbolId) (b : Block) : Value → Prop
  | phi {v : Value} : v ∈ (R.draft.builder.info b).phis → R.draft.known.owner? v = some x →
      Enters R x b v
  | chain {v : Value} {q : Block} : R.draft.known.isSealed b = true →
      R.draft.builder.preds b = [q] → R.draft.known.value? x q = some v → R.through x q b →
      Enters R x b v

/-- What the variable has on entering the block is read later on: in the block, or in blocks after
it, with no write before. -/
inductive Needs (R : Recording) (x : SymbolId) : Block → Prop
  | read {b : Block} {front back : List Event} {r : Value} :
      R.script b = front ++ .read x r :: back → Event.lastWrite? x front = none → Needs R x b
  | back {q c : Block} : R.through x q c → Event.lastWrite? x (R.script q) = none →
      Needs R x c → Needs R x q

/-- A need stays if reads stay, and if nothing is written where the variable has been resolved. -/
theorem Needs.mono {R R' : Recording} {x : SymbolId} {b : Block}
    (hread : ∀ {c front r back}, R.script c = front ++ .read x r :: back →
      ∃ back', R'.script c = front ++ .read x r :: back')
    (hwrite : ∀ {q c}, R.through x q c → Event.lastWrite? x (R.script q) = none →
      Event.lastWrite? x (R'.script q) = none)
    (hthrough : ∀ {q c}, R.through x q c → R'.through x q c) (h : R.Needs x b) :
    R'.Needs x b := by
  induction h with
  | read hscript hfront =>
      obtain ⟨back, hback⟩ := hread hscript
      exact .read hback hfront
  | back hq hnone _ ih => exact .back (hthrough hq) (hwrite hq hnone) ih

/-- The draft and the record of it agree. -/
structure Sound (R : Recording) : Prop where
  coherent : R.draft.Coherent .none
  current : R.draft.builder.current.index < R.draft.builder.blockCount
  entry : 0 < R.draft.builder.blockCount
  edges : R.draft.builder.EdgesAgree
  listed : ∀ {b v}, .inst v ∈ R.script b →
    v.index < R.draft.builder.valueCount ∧ (R.draft.builder.valueInfo v).block = b
  phis : ∀ {b v}, v ∈ (R.draft.builder.info b).phis →
    v.index < R.draft.builder.valueCount ∧ (R.draft.builder.valueInfo v).block = b
  apart : ∀ {b c v}, .inst v ∈ R.script b → v ∉ (R.draft.builder.info c).phis
  once : ∀ b, ((R.script b).filterMap Event.inst?).Nodup
  bound : ∀ {x b k}, R.draft.known.value? x b = some k → Event.lastWrite? x (R.script b) = none →
    R.Enters x b k
  written : ∀ {x b k}, Event.lastWrite? x (R.script b) = some k →
    R.draft.known.value? x b = some k
  read : ∀ {x b r front back}, R.script b = front ++ .read x r :: back →
    Event.lastWrite? x front = some r ∨ Event.lastWrite? x front = none ∧ R.Enters x b r
  through : ∀ {x q c}, R.through x q c → q ∈ R.draft.builder.preds c ∧
    R.draft.known.isSealed c = true ∧ (R.draft.known.value? x q).isSome
  served : ∀ {v x q}, R.draft.known.owner? v = some x →
    R.draft.known.isSealed (R.draft.builder.valueInfo v).block = true →
    q ∈ R.draft.builder.preds (R.draft.builder.valueInfo v).block →
    R.through x q (R.draft.builder.valueInfo v).block
  needs : ∀ {v x}, R.draft.known.owner? v = some x →
    R.Needs x (R.draft.builder.valueInfo v).block

/-! ## Steps of the builder -/

/-- What a step of the builder may do: the search notices nothing of it. -/
structure Builds (R R' : Recording) : Prop where
  value : ∀ x b, R'.draft.known.value? x b = R.draft.known.value? x b
  owner : ∀ v, R'.draft.known.owner? v = R.draft.known.owner? v
  isSealed : ∀ b, R'.draft.known.isSealed b = R.draft.known.isSealed b
  incomplete : R'.draft.known.incomplete = R.draft.known.incomplete
  type : ∀ {x ty}, R.draft.known.type? x = some ty → R'.draft.known.type? x = some ty
  blockCount : R.draft.builder.blockCount ≤ R'.draft.builder.blockCount
  valueCount : R.draft.builder.valueCount ≤ R'.draft.builder.valueCount
  current : R'.draft.builder.current.index < R'.draft.builder.blockCount
  edges : R'.draft.builder.EdgesAgree
  preds : ∀ {c}, R.draft.known.isSealed c = true →
    R'.draft.builder.preds c = R.draft.builder.preds c
  owned : ∀ {v}, v.index < R.draft.builder.valueCount → (R.draft.known.owner? v).isSome →
    R'.draft.builder.valueInfo v = R.draft.builder.valueInfo v
  block : ∀ {v}, v.index < R.draft.builder.valueCount →
    (R'.draft.builder.valueInfo v).block = (R.draft.builder.valueInfo v).block
  phis : ∀ {c v}, v ∈ (R.draft.builder.info c).phis → v ∈ (R'.draft.builder.info c).phis
  newPhis : ∀ {c v}, v ∈ (R'.draft.builder.info c).phis → v ∈ (R.draft.builder.info c).phis ∨
    R.draft.builder.valueCount ≤ v.index ∧ v.index < R'.draft.builder.valueCount ∧
      (R'.draft.builder.valueInfo v).block = c ∧ ∀ b, .inst v ∉ R'.script b
  script : ∀ b, R'.script b = R.script b ∨ ∃ v, R'.script b = R.script b ++ [.inst v] ∧
    R.draft.builder.valueCount ≤ v.index ∧ v.index < R'.draft.builder.valueCount ∧
    (R'.draft.builder.valueInfo v).block = b
  through : R'.through = R.through

namespace Builds

variable {R R' : Recording}

theorem lastWrite? (h : Builds R R') (x : SymbolId) (b : Block) :
    Event.lastWrite? x (R'.script b) = Event.lastWrite? x (R.script b) := by
  rcases h.script b with he | ⟨v, he, -⟩
  · rw [he]
  · rw [he, Event.lastWrite?_inst]

/-- A step of the builder adds no reads. -/
theorem read (h : Builds R R') {x : SymbolId} {b : Block} {r : Value} {front : List Event} :
    (∃ back, R'.script b = front ++ .read x r :: back) ↔
      ∃ back, R.script b = front ++ .read x r :: back := by
  rcases h.script b with he | ⟨v, he, -⟩
  · rw [he]
  · rw [he]
    constructor
    · rintro ⟨back, hback⟩
      rcases List.eq_nil_or_concat back with rfl | ⟨back', e, rfl⟩
      · have := List.append_inj_right' hback (by simp)
        simp at this
      · refine ⟨back', ?_⟩
        rw [List.concat_eq_append, ← List.cons_append, ← List.append_assoc] at hback
        exact List.append_inj_left' hback (by simp)
    · rintro ⟨back, hback⟩
      exact ⟨back ++ [.inst v], by simp [hback]⟩

theorem enters (h : Builds R R') {x : SymbolId} {b : Block} {v : Value} (hv : R.Enters x b v) :
    R'.Enters x b v := by
  cases hv with
  | phi hmem howner => exact .phi (h.phis hmem) (by rw [h.owner]; exact howner)
  | chain hsealed hpreds hvalue hthrough =>
      exact .chain (by rw [h.isSealed]; exact hsealed) (by rw [h.preds hsealed]; exact hpreds)
        (by rw [h.value]; exact hvalue) (by rw [h.through]; exact hthrough)

theorem needs (h : Builds R R') {x : SymbolId} {b : Block} (hb : R.Needs x b) :
    R'.Needs x b := by
  refine hb.mono (fun hscript => h.read.2 ⟨_, hscript⟩) (fun _ hnone => ?_) (fun hq => ?_)
  · rw [h.lastWrite?]
    exact hnone
  · rw [h.through]
    exact hq

/-- The bookkeeping of phis does not notice a step of the builder. -/
theorem coherent (h : Builds R R') (hd : R.draft.Coherent .none) : R'.draft.Coherent .none := by
  have hinfo : ∀ {v x}, R.draft.known.owner? v = some x →
      R'.draft.builder.valueInfo v = R.draft.builder.valueInfo v := fun howner =>
    h.owned (hd.owned howner).1 (Option.isSome_iff_exists.2 ⟨_, howner⟩)
  have hincoming : ∀ {v x}, R.draft.known.owner? v = some x →
      R'.draft.builder.incoming v = R.draft.builder.incoming v := fun howner =>
    Builder.incoming_congr (hinfo howner)
  constructor
  case owned =>
    intro v x howner
    rw [h.owner] at howner
    obtain ⟨h1, h2, h3, h4, h5, h6⟩ := hd.owned howner
    rw [hinfo howner, h.value]
    refine ⟨by have := h.valueCount; omega, by have := h.blockCount; omega, h.phis h3, ?_, h5, h6⟩
    have hty : R'.draft.builder.ty v = R.draft.builder.ty v := congrArg ValueInfo.ty (hinfo howner)
    rw [hty]
    exact h.type h4
  case stage =>
    intro v x howner
    rw [h.owner] at howner
    rw [hinfo howner, h.incomplete, h.isSealed]
    rcases hd.stage howner with hw | ⟨hs, hp | ⟨hf, hv⟩⟩
    · exact .inl hw
    · exact .inr ⟨hs, .inl hp⟩
    · rcases hs with hs | hs
      · refine .inr ⟨.inl hs, .inr ⟨?_, ?_⟩⟩
        · rw [hincoming howner, h.preds hs]
          exact hf
        · intro o ho
          rw [hincoming howner] at ho
          rw [h.value]
          exact hv o ho
      · cases hs
  case waiting =>
    intro p hp
    rw [h.incomplete] at hp
    obtain ⟨howner, hblock⟩ := hd.waiting p hp
    rw [h.owner, hinfo howner]
    exact ⟨howner, hblock⟩
  case empty =>
    intro p hp
    rw [h.incomplete] at hp
    have hp' : p ∈ R.draft.known.incomplete ++ Draft.Agenda.none.phis := by
      simpa [Draft.Agenda.none, Draft.Agenda.phis] using hp
    rw [hincoming (hd.waiting p hp').1]
    exact hd.empty p hp
  case front => simp [Draft.Agenda.none]
  case unsealed =>
    intro p hp
    rw [h.incomplete] at hp
    rw [h.isSealed]
    exact hd.unsealed p hp
  case nodup =>
    rw [h.incomplete]
    exact hd.nodup
  case exists_of_sealed =>
    intro b hb
    rw [h.isSealed] at hb
    exact Nat.lt_of_lt_of_le (hd.exists_of_sealed hb) h.blockCount

end Builds

/-- A step of the builder keeps the record sound. -/
theorem Sound.builds {R R' : Recording} (hR : R.Sound) (h : Builds R R') : R'.Sound := by
  have hinst : ∀ {b v}, .inst v ∈ R'.script b → .inst v ∈ R.script b ∨
      R.draft.builder.valueCount ≤ v.index ∧ v.index < R'.draft.builder.valueCount ∧
        (R'.draft.builder.valueInfo v).block = b := by
    intro b v hv
    rcases h.script b with he | ⟨u, he, hu⟩
    · exact .inl (he ▸ hv)
    · rw [he] at hv
      rcases List.mem_append.1 hv with hv | hv
      · exact .inl hv
      · cases List.mem_singleton.1 hv
        exact .inr hu
  have hpreds : ∀ {q c}, R.draft.known.isSealed c = true →
      (q ∈ R'.draft.builder.preds c ↔ q ∈ R.draft.builder.preds c) := by
    intro q c hc
    rw [h.preds hc]
  have hblock : ∀ {v x}, R.draft.known.owner? v = some x →
      (R'.draft.builder.valueInfo v).block = (R.draft.builder.valueInfo v).block :=
    fun howner => h.block (hR.coherent.owned howner).1
  constructor
  case coherent => exact h.coherent hR.coherent
  case current => exact h.current
  case entry => exact Nat.lt_of_lt_of_le hR.entry h.blockCount
  case edges => exact h.edges
  case listed =>
    intro b v hv
    rcases hinst hv with hv | ⟨-, hlt, hblock⟩
    · obtain ⟨hlt, hblock⟩ := hR.listed hv
      exact ⟨Nat.lt_of_lt_of_le hlt h.valueCount, (h.block hlt).trans hblock⟩
    · exact ⟨hlt, hblock⟩
  case phis =>
    intro b v hv
    rcases h.newPhis hv with hv | ⟨-, hlt, hblock, -⟩
    · obtain ⟨hlt, hblock⟩ := hR.phis hv
      exact ⟨Nat.lt_of_lt_of_le hlt h.valueCount, (h.block hlt).trans hblock⟩
    · exact ⟨hlt, hblock⟩
  case apart =>
    intro b c v hv hphi
    rcases h.newPhis hphi with hphi | ⟨-, -, -, hnot⟩
    · rcases hinst hv with hv | ⟨hle, -⟩
      · exact hR.apart hv hphi
      · exact absurd (hR.phis hphi).1 (Nat.not_lt.2 hle)
    · exact hnot b hv
  case once =>
    intro b
    rcases h.script b with he | ⟨u, he, hle, -⟩
    · rw [he]
      exact hR.once b
    · rw [he, List.filterMap_append]
      refine List.nodup_append.2 ⟨hR.once b, by simp [Event.inst?], ?_⟩
      intro v hv w hw
      have hw' : w = u := by simpa [Event.inst?, eq_comm] using hw
      obtain ⟨e, hmem, hev⟩ := List.mem_filterMap.1 hv
      cases e with
      | inst v' =>
          cases hev
          rw [hw']
          rintro rfl
          exact absurd (hR.listed hmem).1 (Nat.not_lt.2 hle)
      | write _ _ => cases hev
      | read _ _ => cases hev
  case bound =>
    intro x b k hk hwrite
    rw [h.value] at hk
    rw [h.lastWrite?] at hwrite
    exact h.enters (hR.bound hk hwrite)
  case written =>
    intro x b k hwrite
    rw [h.lastWrite?] at hwrite
    rw [h.value]
    exact hR.written hwrite
  case read =>
    intro x b r front back hscript
    obtain ⟨back', hback⟩ := h.read.1 ⟨back, hscript⟩
    rcases hR.read hback with hw | ⟨hw, hr⟩
    · exact .inl hw
    · exact .inr ⟨hw, h.enters hr⟩
  case through =>
    intro x q c hthrough
    rw [h.through] at hthrough
    obtain ⟨hq, hsealed, hvalue⟩ := hR.through hthrough
    rw [hpreds hsealed, h.isSealed, h.value]
    exact ⟨hq, hsealed, hvalue⟩
  case served =>
    intro v x q howner hsealed hq
    rw [h.owner] at howner
    rw [hblock howner] at hsealed hq ⊢
    rw [h.isSealed] at hsealed
    rw [hpreds hsealed] at hq
    rw [h.through]
    exact hR.served howner hsealed hq
  case needs =>
    intro v x howner
    rw [h.owner] at howner
    rw [hblock howner]
    exact h.needs (hR.needs howner)

end Recording

/-! ## Writes -/

namespace Recording

/-- Where an event stands after one more event. -/
theorem split_happen {script : Block → List Event} {b c : Block} {e e' : Event}
    {front back : List Event} (h : happen script b e c = front ++ e' :: back) :
    (∃ back', script c = front ++ e' :: back') ∨ c = b ∧ e = e' ∧ script c = front := by
  by_cases hc : c = b
  · subst hc
    rw [happen_self] at h
    rcases List.eq_nil_or_concat back with rfl | ⟨back', e'', rfl⟩
    · have hlast := List.append_inj_right' h rfl
      have hfront := List.append_inj_left' h rfl
      exact .inr ⟨rfl, List.singleton_inj.1 hlast, hfront⟩
    · rw [List.concat_eq_append, ← List.cons_append, ← List.append_assoc] at h
      exact .inl ⟨back', List.append_inj_left' h rfl⟩
  · rw [happen_of_ne script e hc] at h
    exact .inl ⟨back, h⟩

/-- What stands in a block stays there. -/
theorem happen_of_split {script : Block → List Event} {b c : Block} {e e' : Event}
    {front back : List Event} (h : script c = front ++ e' :: back) :
    ∃ back', happen script b e c = front ++ e' :: back' := by
  by_cases hc : c = b
  · subst hc
    exact ⟨back ++ [e], by rw [happen_self, h]; simp⟩
  · exact ⟨back, by rw [happen_of_ne script e hc, h]⟩

/-- A write keeps the record sound, if the variable has not been resolved through the block. -/
theorem Sound.write {R : Recording} (hR : R.Sound) {x : SymbolId} {b : Block} (v : Value)
    (hb : ∀ c, ¬ R.through x b c) : (R.step (.write x b v)).Sound := by
  let R' := R.step (.write x b v)
  have hvalue : ∀ y c, R'.draft.known.value? y c =
      if y = x ∧ c = b then some v else R.draft.known.value? y c := fun y c =>
    Variables.value?_write_eq R.draft.known x y b c v
  have hlast : ∀ y c, Event.lastWrite? y (R'.script c) =
      if y = x ∧ c = b then some v else Event.lastWrite? y (R.script c) := by
    intro y c
    show Event.lastWrite? y (happen R.script b (.write x v) c) = _
    by_cases hc : c = b
    · subst hc
      rw [happen_self, Event.lastWrite?_write]
      simp [eq_comm]
    · rw [happen_of_ne R.script _ hc]
      simp [hc]
  -- What was resolved on behalf of a block is not the written site.
  have hkept : ∀ {y q c}, R.through y q c →
      R'.draft.known.value? y q = R.draft.known.value? y q := by
    intro y q c hthrough
    rw [hvalue, if_neg]
    rintro ⟨rfl, rfl⟩
    exact hb c hthrough
  have henters : ∀ {y c u}, R.Enters y c u → R'.Enters y c u := by
    intro y c u hu
    cases hu with
    | phi hmem howner => exact .phi hmem howner
    | chain hsealed hpreds hq hthrough =>
        exact .chain hsealed hpreds (by rw [hkept hthrough]; exact hq) hthrough
  have hneeds : ∀ {y c}, R.Needs y c → R'.Needs y c := by
    intro y c hc
    refine hc.mono happen_of_split (fun {q e} hthrough hnone => ?_) id
    rw [hlast, if_neg, hnone]
    rintro ⟨rfl, rfl⟩
    exact hb e hthrough
  have hinst : ∀ {c u}, .inst u ∈ R'.script c ↔ .inst u ∈ R.script c := by
    intro c u
    show _ ∈ happen R.script b (.write x v) c ↔ _
    by_cases hc : c = b
    · subst hc
      simp
    · rw [happen_of_ne R.script _ hc]
  have hd := hR.coherent
  constructor
  case coherent =>
    constructor
    case owned =>
      intro u y howner
      obtain ⟨h1, h2, h3, h4, h5, h6⟩ := hd.owned howner
      refine ⟨h1, h2, h3, h4, ?_, h6⟩
      rw [hvalue]
      split
      · rfl
      · exact h5
    case stage =>
      intro u y howner
      rcases hd.stage howner with hw | ⟨hs, hp | ⟨hf, hv⟩⟩
      · exact .inl hw
      · exact .inr ⟨hs, .inl hp⟩
      · refine .inr ⟨hs, .inr ⟨hf, fun o ho => ?_⟩⟩
        rcases hs with hs | hs
        · have hpred : o.1 ∈ R.draft.builder.preds (R.draft.builder.valueInfo u).block :=
            hf ▸ List.mem_map_of_mem ho
          rw [hkept (hR.served howner hs hpred)]
          exact hv o ho
        · cases hs
    case waiting => exact hd.waiting
    case empty => exact hd.empty
    case front => simp [Draft.Agenda.none]
    case unsealed => exact hd.unsealed
    case nodup => exact hd.nodup
    case exists_of_sealed => exact hd.exists_of_sealed
  case current => exact hR.current
  case entry => exact hR.entry
  case edges => exact hR.edges
  case listed => exact fun hv => hR.listed (hinst.1 hv)
  case phis => exact hR.phis
  case apart => exact fun hv => hR.apart (hinst.1 hv)
  case once =>
    intro c
    show ((happen R.script b (.write x v) c).filterMap Event.inst?).Nodup
    by_cases hc : c = b
    · subst hc
      simpa [List.filterMap_cons, Event.inst?] using hR.once c
    · rw [happen_of_ne R.script _ hc]
      exact hR.once c
  case bound =>
    intro y c k hk hwrite
    rw [hlast] at hwrite
    split at hwrite
    · cases hwrite
    · next hne =>
      rw [hvalue, if_neg hne] at hk
      exact henters (hR.bound hk hwrite)
  case written =>
    intro y c k hwrite
    rw [hlast] at hwrite
    rw [hvalue]
    split at hwrite
    · next heq => rw [if_pos heq, ← hwrite]
    · next hne =>
      rw [if_neg hne]
      exact hR.written hwrite
  case read =>
    intro y c r front back hscript
    rcases split_happen hscript with ⟨back', hback⟩ | ⟨-, he, -⟩
    · rcases hR.read hback with hw | ⟨hw, hr⟩
      · exact .inl hw
      · exact .inr ⟨hw, henters hr⟩
    · cases he
  case through =>
    intro y q c hthrough
    obtain ⟨hq, hsealed, hq'⟩ := hR.through hthrough
    exact ⟨hq, hsealed, by rw [hkept hthrough]; exact hq'⟩
  case served => exact hR.served
  case needs => exact fun howner => hneeds (hR.needs howner)

/-! ## Searches -/

/-- What a search, and what is recorded of it, may do. `P` are the variables and blocks that it goes
through, and `closing?` is a block that it seals. -/
structure Searches (P : SymbolId → Block → Prop) (closing? : Option Block) (R R' : Recording)
    (before after : Draft) : Prop where
  builder : before.builder = R.draft.builder
  value : before.known.value? = R.draft.known.value?
  owner : before.known.owner? = R.draft.known.owner?
  isSealed : before.known.isSealed = R.draft.known.isSealed
  grows : before.Grows P after
  builder' : R'.draft.builder = after.builder
  value' : R'.draft.known.value? = after.known.value?
  owner' : R'.draft.known.owner? = after.known.owner?
  types : R'.draft.known.types = R.draft.known.types
  isSealed' : ∀ c, R'.draft.known.isSealed c = true ↔
    R.draft.known.isSealed c = true ∨ closing? = some c
  coherent : R'.draft.Coherent .none
  insts : ∀ c, (R'.script c).filterMap Event.inst? = (R.script c).filterMap Event.inst?
  writes : ∀ x c, Event.lastWrite? x (R'.script c) = Event.lastWrite? x (R.script c)
  keptReads : ∀ {x c r front back}, R.script c = front ++ .read x r :: back →
    ∃ back', R'.script c = front ++ .read x r :: back'
  reads : ∀ {x c r front back}, R'.script c = front ++ .read x r :: back →
    (∃ back', R.script c = front ++ .read x r :: back') ∨
      front = R.script c ∧ R'.draft.known.value? x c = some r
  kept : ∀ {x q c}, R.through x q c → R'.through x q c
  through : ∀ {x q c}, R'.through x q c → R.through x q c ∨ q ∈ R.draft.builder.preds c ∧
    R'.draft.known.isSealed c = true ∧ (R'.draft.known.value? x q).isSome
  back : ∀ {x q c}, P x c → R.draft.known.value? x c = none → R'.draft.known.isSealed c = true →
    q ∈ R.draft.builder.preds c → R'.through x q c
  closed : ∀ {v x b q}, closing? = some b → R.draft.known.owner? v = some x →
    (R.draft.builder.valueInfo v).block = b → q ∈ R.draft.builder.preds b → R'.through x q b
  needs : ∀ {x c}, P x c → R.draft.known.value? x c = none → R'.Needs x c

namespace Searches

variable {P : SymbolId → Block → Prop} {closing? : Option Block} {R R' : Recording}
  {before after : Draft}

theorem preds (h : Searches P closing? R R' before after) (c : Block) :
    R'.draft.builder.preds c = R.draft.builder.preds c := by
  rw [h.builder', h.grows.preds, h.builder]

theorem blockCount (h : Searches P closing? R R' before after) :
    R'.draft.builder.blockCount = R.draft.builder.blockCount := by
  rw [h.builder', h.grows.blockCount, h.builder]

theorem terminator (h : Searches P closing? R R' before after) (c : Block) :
    (R'.draft.builder.info c).terminator? = (R.draft.builder.info c).terminator? := by
  obtain ⟨new, hinfo, -⟩ := h.grows.info c
  rw [← h.builder', h.builder] at hinfo
  rw [hinfo]

theorem mem_phis (h : Searches P closing? R R' before after) {c : Block} {v : Value}
    (hv : v ∈ (R.draft.builder.info c).phis) : v ∈ (R'.draft.builder.info c).phis := by
  rw [h.builder']
  exact h.grows.phis_subset (by rw [h.builder]; exact hv)

theorem block (h : Searches P closing? R R' before after) {v : Value}
    (hv : v.index < R.draft.builder.valueCount) :
    (R'.draft.builder.valueInfo v).block = (R.draft.builder.valueInfo v).block := by
  rw [h.builder', h.grows.block_eq (by rw [h.builder]; exact hv), h.builder]

theorem value_some (h : Searches P closing? R R' before after) {x : SymbolId} {c : Block}
    {k : Value} (hk : R.draft.known.value? x c = some k) : R'.draft.known.value? x c = some k := by
  rw [h.value']
  exact h.grows.value (by rw [h.value]; exact hk)

theorem enters (h : Searches P closing? R R' before after) {x : SymbolId} {b : Block} {v : Value}
    (hv : R.Enters x b v) : R'.Enters x b v := by
  cases hv with
  | phi hmem howner =>
      refine .phi (h.mem_phis hmem) ?_
      rw [h.owner']
      exact h.grows.owner (by rw [h.owner]; exact howner)
  | chain hsealed hpreds hvalue hthrough =>
      exact .chain ((h.isSealed' b).2 (.inl hsealed)) (by rw [h.preds]; exact hpreds)
        (h.value_some hvalue) (h.kept hthrough)

theorem needs_of_needs (h : Searches P closing? R R' before after) {x : SymbolId} {b : Block}
    (hb : R.Needs x b) : R'.Needs x b := by
  refine hb.mono h.keptReads (fun _ hnone => ?_) h.kept
  rw [h.writes]
  exact hnone

/-- A phi in a block was there before, or the search made it. -/
theorem phis (h : Searches P closing? R R' before after) {c : Block} {v : Value}
    (hv : v ∈ (R'.draft.builder.info c).phis) : v ∈ (R.draft.builder.info c).phis ∨
      R.draft.builder.valueCount ≤ v.index ∧ v.index < R'.draft.builder.valueCount ∧
        (R'.draft.builder.valueInfo v).block = c ∧
        ∃ x, R'.draft.known.owner? v = some x ∧ R.draft.known.value? x c = none ∧ P x c ∧
          (R.draft.known.isSealed c = true → ∀ q, R.draft.builder.preds c ≠ [q]) := by
  obtain ⟨new, hinfo, hnew⟩ := h.grows.info c
  rw [h.builder', hinfo] at hv
  rcases List.mem_append.1 hv with hv | hv
  · exact .inl (by rw [← h.builder]; exact hv)
  · obtain ⟨hle, hlt, hblock, x, howner, hnone, hP, hmerge⟩ := hnew v hv
    rw [h.builder] at hle hmerge
    rw [h.builder', h.owner']
    rw [h.value] at hnone
    rw [h.isSealed] at hmerge
    exact .inr ⟨hle, hlt, hblock, x, howner, hnone, hP, hmerge⟩

/-- A phi that was made for a variable was there before, or the search made it. -/
theorem owner_cases (h : Searches P closing? R R' before after) (hR : R.Sound) {v : Value}
    {x : SymbolId} (howner : R'.draft.known.owner? v = some x) :
    (R.draft.known.owner? v = some x ∧
        (R'.draft.builder.valueInfo v).block = (R.draft.builder.valueInfo v).block) ∨
      R.draft.known.value? x (R'.draft.builder.valueInfo v).block = none ∧
        P x (R'.draft.builder.valueInfo v).block := by
  have howner' := howner
  rw [h.owner'] at howner'
  rcases h.grows.newOwner howner' with hold | hle
  · rw [h.owner] at hold
    exact .inl ⟨hold, h.block (hR.coherent.owned hold).1⟩
  · rw [h.builder] at hle
    obtain ⟨-, -, hmem, -⟩ := h.coherent.owned howner
    rcases h.phis hmem with hmem | ⟨-, -, -, y, hy, hnone, hP, -⟩
    · exact absurd (hR.phis hmem).1 (Nat.not_lt.2 hle)
    · cases hy.symm.trans howner
      exact .inr ⟨hnone, hP⟩

end Searches

/-- A search keeps the record sound. -/
theorem Sound.searched {P : SymbolId → Block → Prop} {closing? : Option Block} {R R' : Recording}
    {before after : Draft} (hR : R.Sound) (h : Searches P closing? R R' before after) :
    R'.Sound := by
  have hcount : R.draft.builder.valueCount ≤ R'.draft.builder.valueCount := by
    have := h.grows.valueCount
    rwa [h.builder, ← h.builder'] at this
  have hinst : ∀ {c v}, .inst v ∈ R'.script c → .inst v ∈ R.script c := by
    intro c v hv
    have hmem : v ∈ (R'.script c).filterMap Event.inst? :=
      List.mem_filterMap.2 ⟨_, hv, rfl⟩
    rw [h.insts] at hmem
    obtain ⟨e, he, hev⟩ := List.mem_filterMap.1 hmem
    cases e with
    | inst u => cases hev; exact he
    | write _ _ => cases hev
    | read _ _ => cases hev
  have hbound : ∀ {x b k}, R'.draft.known.value? x b = some k →
      Event.lastWrite? x (R'.script b) = none → R'.Enters x b k := by
    intro x b k hk hwrite
    rw [h.writes] at hwrite
    cases hbefore : R.draft.known.value? x b with
    | some k' =>
        have hk' := h.value_some hbefore
        cases hk.symm.trans hk'
        exact h.enters (hR.bound hbefore hwrite)
    | none =>
        rw [h.value'] at hk
        obtain ⟨hP, hentry⟩ := h.grows.newValue (by rw [h.value]; exact hbefore) hk
        cases hentry with
        | phi hmem howner =>
            exact .phi (by rw [h.builder']; exact hmem) (by rw [h.owner']; exact howner)
        | @chain q hsealed hpreds hvalue =>
            rw [h.grows.isSealed, h.isSealed] at hsealed
            have hsealed' := (h.isSealed' b).2 (.inl hsealed)
            rw [← h.builder'] at hpreds
            rw [← h.value'] at hvalue
            refine .chain hsealed' hpreds hvalue (h.back hP hbefore hsealed' ?_)
            rw [← h.preds, hpreds]
            simp
  constructor
  case coherent => exact h.coherent
  case current =>
    rw [h.builder', h.grows.current, h.grows.blockCount, h.builder]
    exact hR.current
  case entry =>
    rw [h.builder', h.grows.blockCount, h.builder]
    exact hR.entry
  case edges =>
    refine hR.edges.congr fun c => ?_
    obtain ⟨new, hinfo, -⟩ := h.grows.info c
    rw [h.builder', hinfo, h.builder]
    exact ⟨rfl, rfl⟩
  case listed =>
    intro b v hv
    obtain ⟨hlt, hblock⟩ := hR.listed (hinst hv)
    exact ⟨Nat.lt_of_lt_of_le hlt hcount, (h.block hlt).trans hblock⟩
  case phis =>
    intro b v hv
    rcases h.phis hv with hv | ⟨-, hlt, hblock, -⟩
    · obtain ⟨hlt, hblock⟩ := hR.phis hv
      exact ⟨Nat.lt_of_lt_of_le hlt hcount, (h.block hlt).trans hblock⟩
    · exact ⟨hlt, hblock⟩
  case apart =>
    intro b c v hv hphi
    rcases h.phis hphi with hphi | ⟨hle, -⟩
    · exact hR.apart (hinst hv) hphi
    · exact absurd (hR.listed (hinst hv)).1 (Nat.not_lt.2 hle)
  case once =>
    intro b
    rw [h.insts]
    exact hR.once b
  case bound => exact hbound
  case written =>
    intro x b k hwrite
    rw [h.writes] at hwrite
    exact h.value_some (hR.written hwrite)
  case read =>
    intro x b r front back hscript
    rcases h.reads hscript with ⟨back', hback⟩ | ⟨hfront, hvalue⟩
    · rcases hR.read hback with hw | ⟨hw, hr⟩
      · exact .inl hw
      · exact .inr ⟨hw, h.enters hr⟩
    · rw [hfront]
      cases hw : Event.lastWrite? x (R.script b) with
      | some k =>
          have hk := h.value_some (hR.written hw)
          exact .inl (hk.symm.trans hvalue)
      | none => exact .inr ⟨rfl, hbound hvalue (by rw [h.writes]; exact hw)⟩
  case through =>
    intro x q c hthrough
    rw [h.preds]
    rcases h.through hthrough with hold | hnew
    · obtain ⟨hq, hsealed, hvalue⟩ := hR.through hold
      obtain ⟨k, hk⟩ := Option.isSome_iff_exists.1 hvalue
      exact ⟨hq, (h.isSealed' c).2 (.inl hsealed), Option.isSome_iff_exists.2 ⟨k, h.value_some hk⟩⟩
    · exact hnew
  case served =>
    intro v x q howner hsealed hq
    rw [h.preds] at hq
    rcases h.owner_cases hR howner with ⟨hold, hblock⟩ | ⟨hnone, hP⟩
    · rw [hblock] at hsealed hq ⊢
      rcases (h.isSealed' _).1 hsealed with hs | hs
      · exact h.kept (hR.served hold hs hq)
      · exact h.closed hs hold rfl hq
    · exact h.back hP hnone hsealed hq
  case needs =>
    intro v x howner
    rcases h.owner_cases hR howner with ⟨hold, hblock⟩ | ⟨hnone, hP⟩
    · rw [hblock]
      exact h.needs_of_needs (hR.needs hold)
    · exact h.needs hP hnone

end Recording

/-! ## Every step -/

namespace Recording

variable {R : Recording}

/-- A step of the builder leaves what is known about variables alone. -/
theorem Builds.of_builder {R' : Recording} (hknown : R'.draft.known = R.draft.known)
    (hthrough : R'.through = R.through)
    (blockCount : R.draft.builder.blockCount ≤ R'.draft.builder.blockCount)
    (valueCount : R.draft.builder.valueCount ≤ R'.draft.builder.valueCount)
    (current : R'.draft.builder.current.index < R'.draft.builder.blockCount)
    (edges : R'.draft.builder.EdgesAgree)
    (preds : ∀ {c}, R.draft.known.isSealed c = true →
      R'.draft.builder.preds c = R.draft.builder.preds c)
    (values : ∀ {v}, v.index < R.draft.builder.valueCount →
      ((R.draft.known.owner? v).isSome →
        R'.draft.builder.valueInfo v = R.draft.builder.valueInfo v) ∧
      (R'.draft.builder.valueInfo v).block = (R.draft.builder.valueInfo v).block)
    (phis : ∀ {c v}, v ∈ (R.draft.builder.info c).phis → v ∈ (R'.draft.builder.info c).phis)
    (newPhis : ∀ {c v}, v ∈ (R'.draft.builder.info c).phis →
      v ∈ (R.draft.builder.info c).phis ∨
      R.draft.builder.valueCount ≤ v.index ∧ v.index < R'.draft.builder.valueCount ∧
        (R'.draft.builder.valueInfo v).block = c ∧ ∀ b, .inst v ∉ R'.script b)
    (script : ∀ b, R'.script b = R.script b ∨ ∃ v, R'.script b = R.script b ++ [.inst v] ∧
      R.draft.builder.valueCount ≤ v.index ∧ v.index < R'.draft.builder.valueCount ∧
      (R'.draft.builder.valueInfo v).block = b) : Builds R R' where
  value _ _ := by rw [hknown]
  owner _ := by rw [hknown]
  isSealed _ := by rw [hknown]
  incomplete := by rw [hknown]
  type h := by rw [hknown]; exact h
  blockCount := blockCount
  valueCount := valueCount
  current := current
  edges := edges
  preds := preds
  owned hv ho := (values hv).1 ho
  block hv := (values hv).2
  phis := phis
  newPhis := newPhis
  script := script
  through := hthrough

theorem builds_newBlock (hR : R.Sound) (label : String) : Builds R (R.step (.newBlock label)) := by
  have hinfo := Builder.info_newBlock R.draft.builder label
  have hold : ∀ {c : Block}, c.index = R.draft.builder.blockCount →
      R.draft.builder.info c = default := fun hc =>
    Flow.Function.block_of_le (Nat.le_of_eq hc.symm)
  refine .of_builder rfl rfl ?_ (Nat.le_refl _) ?_ ?_ ?_ (fun _ => ⟨fun _ => rfl, rfl⟩) ?_ ?_
    (fun _ => .inl rfl)
  · simp [step]
  · simpa [step] using Nat.lt_succ_of_lt hR.current
  · refine hR.edges.congr fun c => ?_
    show ((R.draft.builder.newBlock label).2.info c).terminator? = _ ∧
      ((R.draft.builder.newBlock label).2.info c).preds = _
    rw [hinfo]
    split
    · next hc =>
      rw [hold hc]
      exact ⟨rfl, rfl⟩
    · exact ⟨rfl, rfl⟩
  · intro c hc
    show ((R.draft.builder.newBlock label).2.info c).preds = (R.draft.builder.info c).preds
    rw [hinfo, if_neg (Nat.ne_of_lt (hR.coherent.exists_of_sealed hc))]
  · intro c v hv
    show v ∈ ((R.draft.builder.newBlock label).2.info c).phis
    rw [hinfo]
    split
    · next hc => rw [hold hc] at hv; cases hv
    · exact hv
  · intro c v hv
    replace hv : v ∈ ((R.draft.builder.newBlock label).2.info c).phis := hv
    rw [hinfo] at hv
    split at hv
    · cases hv
    · exact .inl hv

theorem builds_setCurrent (hR : R.Sound) {b : Block}
    (hb : b.index < R.draft.builder.blockCount) : Builds R (R.step (.setCurrent b)) :=
  .of_builder rfl rfl (Nat.le_refl _) (Nat.le_refl _) hb hR.edges (fun _ => rfl)
    (fun _ => ⟨fun _ => rfl, rfl⟩) id .inl fun _ => .inl rfl

theorem builds_push (hR : R.Sound) (inst : Inst) (ty : Ty) :
    Builds R (R.step (.push inst ty)) := by
  have hinfo : ∀ c, ((R.step (.push inst ty)).draft.builder.info c).phis =
        (R.draft.builder.info c).phis ∧
      ((R.step (.push inst ty)).draft.builder.info c).terminator? =
        (R.draft.builder.info c).terminator? ∧
      ((R.step (.push inst ty)).draft.builder.info c).preds =
        (R.draft.builder.info c).preds := by
    intro c
    rw [show (R.step (.push inst ty)).draft.builder.info c = _ from
      Builder.info_push R.draft.builder inst ty c]
    split <;> exact ⟨rfl, rfl, rfl⟩
  have hvalue := Builder.valueInfo_push R.draft.builder inst ty
  refine .of_builder rfl rfl ?_ ?_ ?_ ?_ ?_ ?_ ?_ ?_ ?_
  · simp [step]
  · simp [step]
  · simpa [step] using hR.current
  · exact hR.edges.congr fun c => ⟨(hinfo c).2.1, (hinfo c).2.2⟩
  · exact fun _ => (hinfo _).2.2
  · intro v hv
    have : (R.step (.push inst ty)).draft.builder.valueInfo v = R.draft.builder.valueInfo v := by
      rw [show (R.step (.push inst ty)).draft.builder.valueInfo v = _ from hvalue v,
        if_neg (Nat.ne_of_lt hv)]
    exact ⟨fun _ => this, by rw [this]⟩
  · intro c v hv
    rwa [(hinfo c).1]
  · intro c v hv
    rw [(hinfo c).1] at hv
    exact .inl hv
  · intro b
    show happen R.script _ _ b = _ ∨ _
    by_cases hb : b = R.draft.builder.current
    · refine .inr ⟨⟨R.draft.builder.valueCount⟩, by rw [hb]; exact happen_self .., Nat.le_refl _,
        ?_, ?_⟩
      · simp [step]
      · rw [show (R.step (.push inst ty)).draft.builder.valueInfo _ = _ from hvalue _, if_pos rfl,
          hb]
    · exact .inl (happen_of_ne R.script _ hb)

/-- Ending the current block notices nothing of variables. -/
theorem builds_terminate (hR : R.Sound) {t : Terminator} (ht : R.MayEnd t.successors) :
    Builds R (R.step (.terminate t)) := by
  have hphis : ∀ c, ((R.step (.terminate t)).draft.builder.info c).phis =
      (R.draft.builder.info c).phis := by
    intro c
    by_cases hc : c.index < R.draft.builder.blockCount
    · rw [show (R.step (.terminate t)).draft.builder.info c = _ from
        Builder.info_terminate R.draft.builder t c hc]
    · have hle := Nat.not_lt.1 hc
      rw [show R.draft.builder.info c = default from Flow.Function.block_of_le hle]
      rw [show (R.step (.terminate t)).draft.builder.info c = default from
        Flow.Function.block_of_le (by
          show (R.draft.builder.terminate t).blockCount ≤ _
          rw [Builder.blockCount_terminate]
          exact hle)]
  refine .of_builder rfl rfl ?_ ?_ ?_ ?_ ?_ ?_ ?_ ?_ (fun _ => .inl rfl)
  · simp [step]
  · simp [step]
  · simpa [step] using hR.current
  · exact hR.edges.terminate hR.current ht.1 fun c hc => (ht.2 c hc).1
  · intro c hc
    refine Builder.preds_terminate_of_notMem fun hmem => ?_
    rw [(ht.2 c hmem).2] at hc
    cases hc
  · intro v _
    exact ⟨fun _ => Builder.valueInfo_terminate .., by
      rw [show (R.step (.terminate t)).draft.builder.valueInfo v = _ from
        Builder.valueInfo_terminate ..]⟩
  · intro c v hv
    rwa [hphis]
  · intro c v hv
    rw [hphis] at hv
    exact .inl hv

/-- The recording in which a value is new that stands in no list yet. -/
def withCall (R : Recording) (inst : Inst) (ty : Ty) : Recording where
  draft := ⟨(R.draft.builder.newValue inst ty R.draft.builder.current).2, R.draft.known⟩
  script := happen R.script R.draft.builder.current (.inst ⟨R.draft.builder.valueCount⟩)
  through := R.through

theorem builds_withCall (hR : R.Sound) (inst : Inst) (ty : Ty) :
    Builds R (R.withCall inst ty) := by
  have hvalue := Builder.valueInfo_newValue R.draft.builder inst ty R.draft.builder.current
  have hcount : (R.withCall inst ty).draft.builder.valueCount =
      R.draft.builder.valueCount + 1 := by
    simp [withCall, Builder.valueCount, Builder.newValue]
  refine .of_builder rfl rfl (Nat.le_refl _) (by omega) hR.current hR.edges (fun _ => rfl) ?_ id
    .inl ?_
  · intro v hv
    have : (R.withCall inst ty).draft.builder.valueInfo v = R.draft.builder.valueInfo v := by
      rw [show (R.withCall inst ty).draft.builder.valueInfo v = _ from hvalue v,
        if_neg (Nat.ne_of_lt hv)]
    exact ⟨fun _ => this, by rw [this]⟩
  · intro b
    show happen R.script _ _ b = _ ∨ _
    by_cases hb : b = R.draft.builder.current
    · refine .inr ⟨⟨R.draft.builder.valueCount⟩, by rw [hb]; exact happen_self .., Nat.le_refl _,
        by rw [hcount]; exact Nat.lt_succ_self _, ?_⟩
      rw [show (R.withCall inst ty).draft.builder.valueInfo _ = _ from hvalue _, if_pos rfl, hb]
    · exact .inl (happen_of_ne R.script _ hb)

/-- An `invoke` is a new value and then an end. -/
theorem step_invoke (callee : String) (arguments : List Value) (result : Ty)
    (normal unwind : Block) : R.step (.invoke callee arguments result normal unwind) =
      (R.withCall (.call callee arguments) result).step
        (.terminate (.invoke ⟨R.draft.builder.valueCount⟩ normal unwind)) := rfl

theorem builds_phi (hR : R.Sound) (b : Block) (ty : Ty) : Builds R (R.step (.phi b ty)) := by
  have hinfo : ∀ c, (R.step (.phi b ty)).draft.builder.info c = _ :=
    Builder.info_phi R.draft.builder b ty
  have hvalue : ∀ v, (R.step (.phi b ty)).draft.builder.valueInfo v = _ :=
    Builder.valueInfo_phi R.draft.builder b ty
  refine .of_builder rfl rfl ?_ ?_ ?_ ?_ ?_ ?_ ?_ ?_ (fun _ => .inl rfl)
  · simp [step]
  · simp [step]
  · simpa [step] using hR.current
  · refine hR.edges.congr fun c => ?_
    rw [hinfo]
    split <;> exact ⟨rfl, rfl⟩
  · intro c _
    show ((R.step (.phi b ty)).draft.builder.info c).preds = _
    rw [hinfo]
    split <;> rfl
  · intro v hv
    have : (R.step (.phi b ty)).draft.builder.valueInfo v = R.draft.builder.valueInfo v := by
      rw [hvalue, if_neg (Nat.ne_of_lt hv)]
    exact ⟨fun _ => this, by rw [this]⟩
  · intro c v hv
    rw [hinfo]
    split
    · exact List.mem_append_left _ hv
    · exact hv
  · intro c v hv
    rw [hinfo] at hv
    split at hv
    · next hc =>
      rcases List.mem_append.1 hv with hv | hv
      · exact .inl hv
      · rw [List.mem_singleton.1 hv]
        refine .inr ⟨Nat.le_refl _, by simp [step], ?_, fun c hmem => ?_⟩
        · rw [hvalue, if_pos rfl, hc.1]
        · exact absurd (hR.listed hmem).1 (Nat.lt_irrefl _)
    · exact .inl hv

theorem builds_addIncoming (hR : R.Sound) {phi : Value}
    (hphi : R.draft.known.owner? phi = none) (pred : Block) (v : Value) :
    Builds R (R.step (.addIncoming phi pred v)) := by
  have hvalue : ∀ u, (R.step (.addIncoming phi pred v)).draft.builder.valueInfo u = _ :=
    Builder.valueInfo_addIncoming R.draft.builder phi pred v
  refine .of_builder rfl rfl (Nat.le_refl _) ?_ hR.current hR.edges (fun _ => rfl) ?_ id .inl
    (fun _ => .inl rfl)
  · simp [step]
  · intro u _
    refine ⟨fun howner => ?_, ?_⟩
    · rw [hvalue, if_neg]
      rintro ⟨rfl, -⟩
      simp [hphi] at howner
    · rw [hvalue]
      split <;> simp

theorem builds_declare (hR : R.Sound) (x : SymbolId) (ty : Ty) :
    Builds R (R.step (.declare x ty)) where
  value _ _ := rfl
  owner _ := rfl
  isSealed _ := rfl
  incomplete := rfl
  type {y ty'} hy := by
    by_cases h : y = x
    · subst h
      show (R.draft.known.declare y ty).type? y = _
      rw [Variables.type?_declare, hy]
      rfl
    · show (R.draft.known.declare x ty).types[y]? = _
      simp only [Variables.declare, Std.TreeMap.getElem?_insertIfNew]
      have hcmp : ¬ (compare x y = .eq ∧ x ∉ R.draft.known.types) := fun hc =>
        h (Std.LawfulEqOrd.eq_of_compare hc.1).symm
      rw [if_neg hcmp]
      exact hy
  blockCount := Nat.le_refl _
  valueCount := Nat.le_refl _
  current := hR.current
  edges := hR.edges
  preds _ := rfl
  owned _ _ := rfl
  block _ := rfl
  phis := id
  newPhis := .inl
  script _ := .inl rfl
  through := rfl

end Recording

/-! ## Reading and sealing -/

namespace Draft

/-- The blocks of a search exist. -/
theorem Visits.exists' {d : Draft} {x : SymbolId} {b c : Block} (h : d.Visits x b c)
    (hb : b.index < d.builder.blockCount) (hedges : d.builder.EdgesAgree) :
    c.index < d.builder.blockCount := by
  cases h with
  | start => exact hb
  | back _ _ _ hq => exact Flow.Function.lt_of_mem_successors ((hedges.mem _ _).2 hq)

/-- A search does not ask which phis wait. -/
theorem Visits.release {d : Draft} {x : SymbolId} {b c : Block} (h : d.Visits x b c)
    (closing : Block) : (Drafting.release d closing).Visits x b c := by
  induction h with
  | start => exact .start _
  | back _ hnone hsealed hq ih => exact .back ih hnone hsealed hq

/-- A phi of a sealed block has an operand for each predecessor, which is bound there. -/
theorem Coherent.isSome_of_pred {d : Draft} (hd : d.Coherent .none) {v : Value} {x : SymbolId}
    (howner : d.known.owner? v = some x)
    (hsealed : d.known.isSealed (d.builder.valueInfo v).block = true) {q : Block}
    (hq : q ∈ d.builder.preds (d.builder.valueInfo v).block) : (d.known.value? x q).isSome := by
  rcases hd.stage howner with ⟨-, hopen⟩ | ⟨-, hp | ⟨hf, hv⟩⟩
  · rw [hopen] at hsealed
    cases hsealed
  · simp [Agenda.phis, Agenda.none] at hp
  · rw [← hf] at hq
    obtain ⟨o, ho, rfl⟩ := List.mem_map.1 hq
    rw [hv o ho]
    rfl

/-- After a search the variable has a value in every block that it came to. -/
theorem Visits.isSome {P : SymbolId → Block → Prop} {d d₁ d' : Draft} {x : SymbolId} {b c : Block}
    (hgrows : d.Grows P d₁) (hbuilder : d'.builder = d₁.builder)
    (hvalue : d'.known.value? = d₁.known.value?) (howner : d'.known.owner? = d₁.known.owner?)
    (hsealed : ∀ c, d.known.isSealed c = true → d'.known.isSealed c = true)
    (hd' : d'.Coherent .none)
    (hphis : ∀ {c v}, v ∈ (d.builder.info c).phis →
      v.index < d.builder.valueCount ∧ (d.builder.valueInfo v).block = c)
    (h : d.Visits x b c) (hb : (d'.known.value? x b).isSome) :
    (d'.known.value? x c).isSome := by
  induction h with
  | start => exact hb
  | @back c q _ hnone hs hq ih =>
      obtain ⟨k, hk⟩ := Option.isSome_iff_exists.1 ih
      rw [hvalue] at hk
      obtain ⟨-, hentry⟩ := hgrows.newValue hnone hk
      rw [← hgrows.preds, ← hbuilder] at hq
      cases hentry with
      | phi hmem hown =>
          have hblock : (d'.builder.valueInfo k).block = c := by
            obtain ⟨new, hinfo, hnew⟩ := hgrows.info c
            rw [hinfo] at hmem
            rw [hbuilder]
            rcases List.mem_append.1 hmem with hmem | hmem
            · obtain ⟨hlt, hblock⟩ := hphis hmem
              rw [hgrows.block_eq hlt, hblock]
            · exact (hnew k hmem).2.2.1
          rw [← howner] at hown
          rw [← hblock] at hs hq
          exact hd'.isSome_of_pred hown (hsealed _ hs) hq
      | chain _ hpreds hq' =>
          rw [← hbuilder] at hpreds
          rw [hpreds, List.mem_singleton] at hq
          rw [hvalue, hq, hq']
          rfl

end Draft

namespace Recording

/-- The blocks that a search goes through need the variable if its first block does. -/
theorem Needs.visits {R R' : Recording} (hR : R.Sound) {x : SymbolId} {b c : Block}
    (hwrites : ∀ c, Event.lastWrite? x (R'.script c) = Event.lastWrite? x (R.script c))
    (hthrough : ∀ {q c}, R.draft.Resolves x b q c → R'.through x q c)
    (hb : R.draft.known.value? x b = none → R'.Needs x b) (h : R.draft.Visits x b c)
    (hc : R.draft.known.value? x c = none) : R'.Needs x c := by
  induction h with
  | start => exact hb hc
  | @back c q hvisits hnone hs hq ih =>
      refine .back (hthrough ⟨hvisits, hnone, hs, hq⟩) ?_ (ih hnone)
      rw [hwrites]
      cases hw : Event.lastWrite? x (R.script q) with
      | none => rfl
      | some k => cases hc.symm.trans (hR.written hw)

/-- Where nothing is bound, nothing has been written. -/
theorem Sound.lastWrite?_of_none {R : Recording} (hR : R.Sound) {x : SymbolId} {b : Block}
    (h : R.draft.known.value? x b = none) : Event.lastWrite? x (R.script b) = none := by
  cases hw : Event.lastWrite? x (R.script b) with
  | none => rfl
  | some k => cases h.symm.trans (hR.written hw)

/-- The recording after a read that gave `v`. -/
def afterRead (R : Recording) (x : SymbolId) (b : Block) (v : Value) (draft : Draft) :
    Recording where
  draft := draft
  script := happen R.script b (.read x v)
  through y q c := R.through y q c ∨ (y = x ∧ R.draft.Resolves x b q c)

/-- What a read may go through. -/
theorem region_read {R : Recording} (hR : R.Sound) {x : SymbolId} {b : Block}
    (hb : b.index < R.draft.builder.blockCount) :
    Drafting.Region (fun y c => y = x ∧ R.draft.Visits x b c) R.draft where
  closed hc hnone hsealed hq := ⟨hc.1, .back hc.2 (hc.1 ▸ hnone) hsealed hq⟩
  exists' hc := hc.2.exists' hb hR.edges

/-- A read is a search. -/
theorem searches_read {R : Recording} (hR : R.Sound) {x : SymbolId} {b : Block}
    (hb : b.index < R.draft.builder.blockCount) {v : Value} {d' : Draft}
    (h : (Drafting.read x b).on R.draft = (.ok v, d')) :
    Searches (fun y c => y = x ∧ R.draft.Visits x b c) none R (R.afterRead x b v d')
      R.draft d' := by
  obtain ⟨hgrows, hd', hvalue⟩ :=
    Drafting.read_spec (region_read hR hb) hR.coherent ⟨rfl, .start b⟩ h
  have hwrites : ∀ y c, Event.lastWrite? y (happen R.script b (.read x v) c) =
      Event.lastWrite? y (R.script c) := by
    intro y c
    by_cases hc : c = b
    · subst hc
      simp
    · rw [happen_of_ne R.script _ hc]
  constructor
  case builder => rfl
  case value => rfl
  case owner => rfl
  case isSealed => rfl
  case grows => exact hgrows
  case builder' => rfl
  case value' => rfl
  case owner' => rfl
  case types => exact hgrows.types
  case isSealed' =>
    intro c
    rw [show (R.afterRead x b v d').draft.known.isSealed c = _ from hgrows.isSealed c]
    simp
  case coherent => exact hd'
  case insts =>
    intro c
    show (happen R.script b (.read x v) c).filterMap Event.inst? = _
    by_cases hc : c = b
    · subst hc
      simp [List.filterMap_cons, Event.inst?]
    · rw [happen_of_ne R.script _ hc]
  case writes => exact hwrites
  case keptReads => exact happen_of_split
  case reads =>
    intro y c r front back hscript
    rcases split_happen hscript with hold | ⟨rfl, he, hfront⟩
    · exact .inl hold
    · cases he
      exact .inr ⟨hfront.symm, hvalue⟩
  case kept => exact .inl
  case through =>
    rintro y q c (hold | ⟨rfl, hvisits, hnone, hsealed, hq⟩)
    · exact .inl hold
    · refine .inr ⟨hq, (hgrows.isSealed c).trans hsealed, ?_⟩
      have hvisits' := Draft.Visits.back hvisits hnone hsealed hq
      exact hvisits'.isSome hgrows rfl rfl rfl (fun c hc => (hgrows.isSealed c).trans hc) hd'
        hR.phis (Option.isSome_iff_exists.2 ⟨v, hvalue⟩)
  case back =>
    rintro y q c ⟨rfl, hvisits⟩ hnone hsealed hq
    exact .inr ⟨rfl, hvisits, hnone, (hgrows.isSealed c).symm.trans hsealed, hq⟩
  case closed =>
    intro _ _ _ _ hnone
    cases hnone
  case needs =>
    rintro y c ⟨rfl, hvisits⟩ hnone
    refine Needs.visits hR (hwrites y) (fun hq => .inr ⟨rfl, hq⟩) (fun hb => ?_) hvisits hnone
    have hscript : (R.afterRead y b v d').script b = R.script b ++ .read y v :: [] :=
      happen_self ..
    exact .read hscript (hR.lastWrite?_of_none hb)

/-- The recording after a sealing. -/
def afterSeal (R : Recording) (b : Block) (draft : Draft) : Recording where
  draft := draft
  script := R.script
  through y q c := R.through y q c ∨ R.draft.SealResolves b y q c

/-- What a sealing may go through. -/
def SealVisits (R : Recording) (b : Block) (x : SymbolId) (c : Block) : Prop :=
  (∃ p ∈ R.draft.known.incompleteOf b, p.var = x) ∧
    ∃ start ∈ R.draft.builder.preds b, R.draft.Visits x start c

theorem region_seal {R : Recording} (hR : R.Sound) (b : Block) :
    Drafting.Region (R.SealVisits b) (Drafting.release R.draft b) where
  closed := by
    rintro x c q ⟨hp, start, hstart, hvisits⟩ hnone hsealed hq
    exact ⟨hp, start, hstart, .back hvisits hnone hsealed hq⟩
  exists' := by
    rintro x c ⟨-, start, hstart, hvisits⟩
    exact hvisits.exists' (Flow.Function.lt_of_mem_successors ((hR.edges.mem _ _).2 hstart)) hR.edges

/-- The phis that wait for a block stand there. -/
theorem Sound.incompleteOf {R : Recording} (hR : R.Sound) {b : Block} {p : OpenPhi}
    (hp : p ∈ R.draft.known.incompleteOf b) :
    R.draft.known.owner? p.phi = some p.var ∧ (R.draft.builder.valueInfo p.phi).block = b := by
  obtain ⟨hmem, hblock⟩ := List.mem_filter.1 hp
  obtain ⟨howner, hinfo⟩ := hR.coherent.waiting p (List.mem_append_left _ hmem)
  exact ⟨howner, hinfo.trans (of_decide_eq_true hblock)⟩

theorem served_seal {R : Recording} (b : Block) :
    Drafting.Served (R.SealVisits b) R.draft (R.draft.known.incompleteOf b) := by
  intro p hp q hq
  rw [of_decide_eq_true (List.mem_filter.1 hp).2] at hq
  exact ⟨⟨p, hp, rfl⟩, q, hq, .start q⟩

/-- Sealing is a search. -/
theorem searches_seal {R : Recording} (hR : R.Sound) {b : Block}
    (hb : b.index < R.draft.builder.blockCount) {d' : Draft}
    (h : (Drafting.sealBlock b).on R.draft = (.ok (), d')) :
    ∃ d₁, Searches (R.SealVisits b) (some b) R (R.afterSeal b d')
      (Drafting.release R.draft b) d₁ := by
  have hbound : ∀ x, R.SealVisits b x b → (R.draft.known.value? x b).isSome := by
    rintro x ⟨⟨p, hp, rfl⟩, -⟩
    obtain ⟨howner, hblock⟩ := hR.incompleteOf hp
    have := (hR.coherent.owned howner).2.2.2.2.1
    rwa [hblock] at this
  obtain ⟨d₁, hopen, hgrows, hclose, hd'⟩ := Drafting.sealBlock_spec (region_seal hR b)
    hR.coherent (served_seal b) hb hbound h
  have hsealed : ∀ c, d'.known.isSealed c = true ↔
      R.draft.known.isSealed c = true ∨ some b = some c := by
    intro c
    rw [hclose, Drafting.isSealed_close, hgrows.isSealed, Bool.or_eq_true_iff,
      decide_eq_true_eq, or_comm, Option.some.injEq, eq_comm (a := c)]
    rfl
  have hbuilder : d'.builder = d₁.builder := by rw [hclose]; rfl
  have hvalue : d'.known.value? = d₁.known.value? := by rw [hclose]; rfl
  have howner : d'.known.owner? = d₁.known.owner? := by rw [hclose]; rfl
  have hstart : ∀ {x start}, (∃ p ∈ R.draft.known.incompleteOf b, p.var = x) →
      start ∈ R.draft.builder.preds b → (d'.known.value? x start).isSome := by
    rintro x start ⟨p, hp, rfl⟩ hstart
    obtain ⟨hp, hblock⟩ := hR.incompleteOf hp
    have hblock' : (d'.builder.valueInfo p.phi).block = b := by
      rw [hbuilder, hgrows.block_eq (hR.coherent.owned hp).1]
      exact hblock
    refine hd'.isSome_of_pred (v := p.phi) ?_ ?_ ?_
    · rw [howner]
      exact hgrows.owner hp
    · rw [hblock', hsealed]
      exact .inr rfl
    · rw [hblock', hbuilder, hgrows.preds]
      exact hstart
  refine ⟨d₁, ?_⟩
  constructor
  case builder => rfl
  case value => rfl
  case owner => rfl
  case isSealed => rfl
  case grows => exact hgrows
  case builder' => exact hbuilder
  case value' => exact hvalue
  case owner' => exact howner
  case types =>
    have htypes : d₁.known.types = R.draft.known.types := hgrows.types
    show d'.known.types = _
    rw [hclose]
    exact htypes
  case isSealed' => exact hsealed
  case coherent => exact hd'
  case insts => exact fun _ => rfl
  case writes => exact fun _ _ => rfl
  case keptReads => exact fun h => ⟨_, h⟩
  case reads => exact fun h => .inl ⟨_, h⟩
  case kept => exact .inl
  case through =>
    rintro y q c (hold | ⟨hp, ⟨rfl, hq⟩ | ⟨start, hmem, hvisits, hnone, hs, hq⟩⟩)
    · exact .inl hold
    · exact .inr ⟨hq, (hsealed c).2 (.inr rfl), hstart hp hq⟩
    · refine .inr ⟨hq, (hsealed c).2 (.inl hs), ?_⟩
      have hvisits' := Draft.Visits.back hvisits hnone hs hq
      exact (hvisits'.release b).isSome hgrows hbuilder hvalue howner
        (fun c hc => (hsealed c).2 (.inl hc)) hd' hR.phis (hstart hp hmem)
  case back =>
    rintro y q c ⟨hp, start, hmem, hvisits⟩ hnone hs hq
    rcases (hsealed c).1 hs with hs | hs
    · exact .inr ⟨hp, .inr ⟨start, hmem, hvisits, hnone, hs, hq⟩⟩
    · cases hs
      have := hbound y ⟨hp, start, hmem, hvisits⟩
      simp [hnone] at this
  case closed =>
    intro v x c q hc hown hblock hq
    cases hc
    refine .inr ⟨?_, .inl ⟨rfl, hq⟩⟩
    rcases hR.coherent.stage hown with ⟨hw, -⟩ | ⟨hs | hs, -⟩
    · rw [hblock] at hw
      exact ⟨_, List.mem_filter.2 ⟨hw, decide_eq_true rfl⟩, rfl⟩
    · rw [hblock, hopen] at hs
      cases hs
    · cases hs
  case needs =>
    rintro y c ⟨hp, start, hmem, hvisits⟩ hnone
    refine Needs.visits hR (fun _ => rfl) (fun hq => .inr ⟨hp, .inr ⟨start, hmem, hq⟩⟩)
      (fun hb => ?_) hvisits hnone
    have hneeds : R.Needs y b := by
      obtain ⟨p, hp, rfl⟩ := hp
      obtain ⟨howner, hblock⟩ := hR.incompleteOf hp
      exact hblock ▸ hR.needs howner
    have hneeds' : (R.afterSeal b d').Needs y b := by
      refine Needs.mono (R := R) ?_ ?_ ?_ hneeds
      · exact fun h => ⟨_, h⟩
      · exact fun _ h => h
      · exact .inl
    exact .back (.inr ⟨hp, .inl ⟨rfl, hmem⟩⟩) (hR.lastWrite?_of_none hb) hneeds'

end Recording

/-! ## Runs -/

namespace Recording

theorem info_start (name : String) (params : List Ty) (result : Ty) (c : Block) :
    (start name params result).draft.builder.info c =
      if c = Flow.Function.entry then Builder.entryInfo params else default := by
  show (Flow.Function.block _ c) = _
  unfold Flow.Function.block
  by_cases hc : c = Flow.Function.entry
  · subst hc
    rfl
  · rw [if_neg hc]
    have : c.index ≠ 0 := fun h => hc (Flow.Block.ext_index h)
    simp [start, Builder.start, this]

/-- At the start there are no edges and no phis. -/
theorem frame_start (name : String) (params : List Ty) (result : Ty) (c : Block) :
    (start name params result).draft.builder.preds c = [] ∧
      ((start name params result).draft.builder.info c).phis = [] := by
  show ((start name params result).draft.builder.info c).preds = [] ∧ _
  rw [info_start]
  split <;> exact ⟨rfl, rfl⟩

theorem sound_start (name : String) (params : List Ty) (result : Ty) :
    (start name params result).Sound := by
  have hinfo := info_start name params result
  have hcount : (start name params result).draft.builder.valueCount = params.length := by
    simp [start, Builder.start, Builder.valueCount, Builder.paramValues]
  have hphis : ∀ c, ((start name params result).draft.builder.info c).phis = [] := by
    intro c
    rw [hinfo]
    split <;> rfl
  have hscript : ∀ {b v}, .inst v ∈ (start name params result).script b →
      b = Flow.Function.entry ∧ v.index < params.length := by
    intro b v hv
    simp only [start] at hv
    split at hv
    · next hb =>
      obtain ⟨i, hi, he⟩ := List.mem_map.1 hv
      cases he
      exact ⟨hb, List.mem_range.1 hi⟩
    · cases hv
  have hnoRead : ∀ {b x r}, Event.read x r ∉ (start name params result).script b := by
    intro b x r hmem
    simp only [start] at hmem
    split at hmem
    · obtain ⟨i, -, he⟩ := List.mem_map.1 hmem
      cases he
    · cases hmem
  have hwrite : ∀ {x b}, Event.lastWrite? x ((start name params result).script b) = none := by
    intro x b
    simp only [start]
    split
    · simp [Event.lastWrite?, Event.writeOf?]
    · rfl
  have hvalue : ∀ x b, (start name params result).draft.known.value? x b = none := by
    intro x b
    simp [start, Variables.empty, Variables.value?]
  have howner : ∀ v, (start name params result).draft.known.owner? v = none := by
    intro v
    simp [start, Variables.empty, Variables.owner?]
  have hsealed : ∀ b, (start name params result).draft.known.isSealed b = false := by
    intro b
    simp [start, Variables.empty, Variables.isSealed]
  constructor
  case coherent =>
    constructor
    case owned => simp [howner]
    case stage => simp [howner]
    case waiting => simp [start, Variables.empty, Draft.Agenda.none, Draft.Agenda.phis]
    case empty => simp [start, Variables.empty, Draft.Agenda.none]
    case front => simp [Draft.Agenda.none]
    case unsealed => simp [start, Variables.empty]
    case nodup => simp [start, Variables.empty, Draft.Agenda.none, Draft.Agenda.phis]
    case exists_of_sealed => simp [hsealed]
  case current => simp [start, Builder.start, Builder.blockCount, Flow.Function.entry]
  case entry => simp [start, Builder.start, Builder.blockCount]
  case edges =>
    intro b c
    have hterm : ((start name params result).draft.builder.info b).terminator? = none := by
      rw [hinfo]
      split <;> rfl
    have hpreds : ((start name params result).draft.builder.info c).preds = [] := by
      rw [hinfo]
      split <;> rfl
    simp only [Flow.Function.successors, Builder.preds, Flow.Function.preds]
    rw [show (Flow.Function.block _ b).terminator? = none from hterm,
      show (Flow.Function.block _ c).preds = [] from hpreds]
    simp
  case listed =>
    intro b v hv
    obtain ⟨rfl, hlt⟩ := hscript hv
    refine ⟨by rw [hcount]; exact hlt, ?_⟩
    have hlt' : v.index < (start name params result).draft.builder.function.values.size := by
      have := hcount
      unfold Builder.valueCount at this
      omega
    simp only [Builder.valueInfo, Flow.Function.value, Array.getD_eq_getD_getElem?]
    rw [Array.getElem?_eq_getElem hlt']
    simp [start, Builder.start, Builder.paramValues]
  case phis => simp [hphis]
  case apart => simp [hphis]
  case once =>
    intro b
    simp only [start]
    split
    · rw [List.filterMap_map]
      have : (Event.inst? ∘ fun i => Event.inst ⟨i⟩) = fun i => some (⟨i⟩ : Value) := rfl
      rw [this, List.filterMap_eq_map']
      refine List.Pairwise.map _ (fun i j hij he => hij ?_) List.nodup_range
      cases he
      rfl
    · exact List.nodup_nil
  case bound => simp [hvalue]
  case written => simp [hwrite]
  case read =>
    intro x b r front back hsplit
    exact absurd (hsplit ▸ by simp) (hnoRead (b := b) (x := x) (r := r))
  case through => exact False.elim
  case served => simp [howner]
  case needs => simp [howner]

/-- A read that succeeds keeps the record sound. -/
theorem Sound.read' {R : Recording} (hR : R.Sound) {x : SymbolId} {b : Block}
    (hb : b.index < R.draft.builder.blockCount) {v : Value} {d' : Draft}
    (h : (Drafting.read x b).on R.draft = (.ok v, d')) : (R.afterRead x b v d').Sound :=
  hR.searched (searches_read hR hb h)

/-- Sealing that succeeds keeps the record sound. -/
theorem Sound.sealBlock {R : Recording} (hR : R.Sound) {b : Block}
    (hb : b.index < R.draft.builder.blockCount) {d' : Draft}
    (h : (Drafting.sealBlock b).on R.draft = (.ok (), d')) : (R.afterSeal b d').Sound := by
  obtain ⟨d₁, hsearch⟩ := searches_seal hR hb h
  exact hR.searched hsearch

theorem step_read_ok {R : Recording} {x : SymbolId} {b : Block} {v : Value} {d' : Draft}
    (h : (Drafting.read x b).on R.draft = (.ok v, d')) :
    R.step (.read x b) = R.afterRead x b v d' := by
  rw [step, h]
  rfl

theorem step_sealBlock_ok {R : Recording} {b : Block} {d' : Draft}
    (h : (Drafting.sealBlock b).on R.draft = (.ok (), d')) :
    R.step (.sealBlock b) = R.afterSeal b d' := by
  rw [step, h]
  rfl

/-- A read of a variable that has a type succeeds. -/
theorem step_read {R : Recording} (hR : R.Sound) (hacyclic : R.draft.Acyclic) {x : SymbolId}
    {b : Block} (hallowed : R.Allowed (.read x b)) :
    ∃ v d', (Drafting.read x b).on R.draft = (.ok v, d') ∧
      R.step (.read x b) = R.afterRead x b v d' := by
  obtain ⟨⟨hb, htype⟩, -, -⟩ := hallowed
  obtain ⟨v, d', h⟩ :=
    Drafting.read_total (region_read hR hb) hR.coherent ⟨rfl, .start b⟩ hacyclic htype
  exact ⟨v, d', h, step_read_ok h⟩

/-- Sealing a block succeeds, unless that has been done before. -/
theorem step_sealBlock {R : Recording} (hR : R.Sound) (hacyclic : R.draft.Acyclic) (b : Block) :
    R.step (.sealBlock b) = R ∨ ∃ d', (Drafting.sealBlock b).on R.draft = (.ok (), d') ∧
      R.step (.sealBlock b) = R.afterSeal b d' := by
  cases hopen : R.draft.known.isSealed b with
  | true =>
      left
      have h : (Drafting.sealBlock b).on R.draft =
          (.error (.ofDefect (.sealedTwice b)), R.draft) := by
        rw [Drafting.sealBlock, Drafting.on_bind, Drafting.on_get]
        simp only [hopen, if_true]
        rw [Drafting.on_bind, Drafting.on_throw]
      rw [step, h]
  | false =>
      right
      obtain ⟨d', h⟩ := Drafting.sealBlock_total (region_seal hR b) hR.coherent (served_seal b)
        hopen hacyclic
      exact ⟨d', h, step_sealBlock_ok h⟩

/-- Every step that callers may make keeps the record sound. -/
theorem Sound.step {R : Recording} (hR : R.Sound) (hacyclic : R.draft.Acyclic) {op : Op}
    (hop : R.Allowed op) : (R.step op).Sound := by
  obtain ⟨hloose, hloops, hphis⟩ := id hop
  cases op with
  | newBlock label => exact hR.builds (builds_newBlock hR label)
  | setCurrent b => exact hR.builds (builds_setCurrent hR hloose)
  | push inst ty => exact hR.builds (builds_push hR inst ty)
  | terminate t => exact hR.builds (builds_terminate hR hloose.1)
  | invoke callee arguments result normal unwind =>
      rw [step_invoke]
      have hcall := hR.builds (builds_withCall hR (.call callee arguments) result)
      exact hcall.builds (builds_terminate hcall hloose)
  | phi b ty => exact hR.builds (builds_phi hR b ty)
  | addIncoming phi pred v => exact hR.builds (builds_addIncoming hR (hphis phi pred v rfl) pred v)
  | declare x ty => exact hR.builds (builds_declare hR x ty)
  | write x b v =>
      refine hR.write v fun c hc => ?_
      by_cases hcb : c = b
      · exact hloops x b v rfl (hcb ▸ hc)
      · exact hloose.2 c hcb hc
  | read x b =>
      obtain ⟨v, d', h, hstep⟩ := step_read hR hacyclic hop
      rw [hstep]
      exact hR.read' hloose.1 h
  | sealBlock b =>
      rcases step_sealBlock hR hacyclic b with hstep | ⟨d', h, hstep⟩
      · rw [hstep]
        exact hR
      · rw [hstep]
        exact hR.sealBlock hloose h

end Recording

end Abacus.Lowering
