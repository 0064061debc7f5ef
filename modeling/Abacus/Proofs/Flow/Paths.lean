import Abacus.Flow.Basic
import Mathlib.Data.List.Basic
import Mathlib.Tactic.Common

/-!
# Paths through a function

A path leads from the entry to a block, along the edges that the ends of the blocks give.

* `Function.Path` — the blocks passed on the way to a block, in order, with repetitions;
* `Function.Dominates` — one block stands on every path to another;
* `Path.first` — a path that passes a block has a part that comes to it for the first time.
-/

namespace Abacus.Flow

namespace Function

/-- A path from the entry to a block, given by the blocks passed before it. -/
inductive Path (f : Function) : List Block → Block → Prop
  | entry : Path f [] entry
  | edge {p : List Block} {b c : Block} : Path f p b → c ∈ f.successors b → Path f (p ++ [b]) c

/-- Every path to `b` comes through `a`. -/
def Dominates (f : Function) (a b : Block) : Prop := ∀ p, f.Path p b → a ∈ p ++ [b]

namespace Path

variable {f : Function} {p : List Block} {a b : Block}

/-- A path that passes a block has a part that comes to it for the first time. -/
theorem first (h : f.Path p b) (ha : a ∈ p ++ [b]) : ∃ q, f.Path q a ∧ a ∉ q ∧ q <+: p := by
  induction h with
  | entry =>
      rw [List.nil_append, List.mem_singleton] at ha
      exact ⟨[], ha ▸ .entry, by simp, List.nil_prefix⟩
  | @edge p b c hpath hedge ih =>
      by_cases hmem : a ∈ p ++ [b]
      · obtain ⟨q, hq, hnot, hpre⟩ := ih hmem
        exact ⟨q, hq, hnot, hpre.trans (List.prefix_append p [b])⟩
      · have hac : a = c := by
          simp only [List.mem_append, List.mem_singleton] at ha hmem
          tauto
        exact ⟨p ++ [b], hac ▸ .edge hpath hedge, hmem, List.prefix_refl _⟩

/-- A path that comes from somewhere comes from the entry. -/
theorem entry_mem (h : f.Path p b) : Function.entry ∈ p ++ [b] := by
  induction h with
  | entry => simp
  | edge _ _ ih => exact List.mem_append_left _ ih

end Path

theorem Dominates.refl (f : Function) (a : Block) : f.Dominates a a := by
  intro p _
  simp

theorem Dominates.trans {f : Function} {a b c : Block} (hab : f.Dominates a b)
    (hbc : f.Dominates b c) : f.Dominates a c := by
  intro p hp
  obtain ⟨q, hq, -, hpre⟩ := hp.first (hbc p hp)
  rcases List.mem_append.1 (hab q hq) with ha | ha
  · exact List.mem_append_left _ (hpre.subset ha)
  · rw [List.mem_singleton.1 ha]
    exact hbc p hp

end Function

end Abacus.Flow
