import Abacus.Flow.Basic

/-!
# Linked programs

A `Program` collects the functions of one or more modules. A function that is linked under a name
already taken replaces the earlier one in its place.
-/

namespace Abacus.Machine

open Abacus.Flow (Function Module)

/-- The functions that can be called, in the order in which their names were first linked. -/
structure Program where
  functions : List Function

namespace Program

/-- A program without functions. -/
def empty : Program := ⟨[]⟩

/-- The function of a name. -/
def get? (p : Program) (name : String) : Option Function :=
  p.functions.find? (·.name = name)

/-- The names of the functions, in link order. -/
def names (p : Program) : List String := p.functions.map Function.name

/-- Adds a function, or puts it in the place of the one that has its name. -/
def insert (p : Program) (f : Function) : Program :=
  if p.functions.any (·.name = f.name) then
    ⟨p.functions.map fun old => if old.name = f.name then f else old⟩
  else ⟨p.functions ++ [f]⟩

/-- The last function linked under a name counts. -/
theorem get?_insert (p : Program) (f : Function) : (p.insert f).get? f.name = some f := by
  unfold insert get?
  split
  · next h =>
    obtain ⟨functions⟩ := p
    induction functions with
    | nil => simp at h
    | cons g rest ih =>
      by_cases hg : g.name = f.name
      · simp [hg]
      · simpa [hg] using ih (by simpa [hg] using h)
  · next h =>
    have hnone : p.functions.find? (·.name = f.name) = none := by simpa using h
    simp [List.find?_append, hnone]

/-- A function keeps the place of the one that it replaces. -/
theorem names_insert (p : Program) (f : Function) :
    (p.insert f).names = if f.name ∈ p.names then p.names else p.names ++ [f.name] := by
  unfold insert names
  by_cases h : ∃ g ∈ p.functions, g.name = f.name
  · rw [if_pos (by simpa using h), if_pos (by simpa using h), List.map_map]
    refine List.map_congr_left fun g _ => ?_
    by_cases hg : g.name = f.name <;> simp [hg]
  · rw [if_neg (by simpa using h), if_neg (by simpa using h)]
    simp

/-- Adds the functions of a module, in order. -/
def link (p : Program) (m : Module) : Program := m.functions.foldl insert p

/-- The program of one module. -/
def ofModule (m : Module) : Program := empty.link m

end Program

end Abacus.Machine
