import Abacus.Proofs.Source.Lines

/-!
# From texts to trees

What the tokens of a text are and how they are read, put together.

* `parse_isItem` — whatever is parsed, its trees stand where they belong;
* `parse_intercalate` — texts of definitions, each on lines of its own, parse together as they do one
  by one.
-/

namespace Abacus

open Abacus.Parser (Readable itemsOf)
open TokenStream (ofTokens Whole)
open Abacus.Tree (ItemAlike)

/-- The token stream of a text. -/
def streamOf (source : String) : TokenStream := ofTokens (scan source).tokens

variable {source : String} {tree : Tree}

/-- A text is parsed if there is nothing to complain about, neither in its tokens nor in its
statements. -/
theorem parse_ok_iff : parse source = .ok tree ↔
    (scan source).complaints = [] ∧ Readable (streamOf source) ∧
      (Parser.program (streamOf source)).1 = tree := by
  unfold parse
  dsimp only
  split
  · next hscan =>
    have hquiet : (scan source).complaints = [] := List.isEmpty_iff.1 hscan
    show (if (Parser.program (streamOf source)).2.complaints.isEmpty
      then Except.ok (Parser.program (streamOf source)).1
      else .error (Parser.program (streamOf source)).2.complaints.toList) = .ok tree ↔ _
    have hreadable : (Parser.program (streamOf source)).2.complaints.isEmpty = true ↔
        Readable (streamOf source) := Array.isEmpty_iff
    by_cases hread : Readable (streamOf source)
    · rw [if_pos (hreadable.2 hread)]
      simp [hquiet, hread]
    · rw [if_neg (mt hreadable.1 hread)]
      simp [hread]
  · next hscan =>
    have hcomplaints : (scan source).complaints ≠ [] := fun hnil => hscan (by rw [hnil]; rfl)
    simp [hcomplaints]

theorem items_program (s : TokenStream) : (Parser.program s).1.items = itemsOf s := rfl

/-- Whatever is parsed, its trees stand where they belong. -/
theorem parse_isItem (h : parse source = .ok tree) : ∀ t ∈ tree.items, t.IsItem := by
  obtain ⟨hscan, hread, rfl⟩ := parse_ok_iff.1 h
  exact (scan_whole hscan).isItem hread

theorem scanItems_nil : scanItems "" = [.token ⟨.eof, ⟨0, 0, 1, 1⟩⟩] :=
  lineStart_of_nil (c := Cursor.ofText "") rfl

/-- Texts that each start with a definition, if with anything, on lines of their own have the tokens
of all of them. -/
theorem scan_intercalate {sources : List String}
    (h : ∀ source ∈ sources, (scan source).complaints = [] ∧
      ∀ l ∈ (streamOf source).lexemes.head?, l = .fnWord) :
    (scan ("\n".intercalate sources)).complaints = [] ∧
      (streamOf ("\n".intercalate sources)).lexemes =
        sources.flatMap fun source => (streamOf source).lexemes := by
  induction sources with
  | nil =>
    rw [String.intercalate_nil, streamOf, scan, scanItems_nil]
    exact ⟨rfl, rfl⟩
  | cons source sources ih =>
    cases sources with
    | nil => simpa using (h source List.mem_cons_self).1
    | cons next sources =>
      have hsources := fun source hmem => h source (List.mem_cons_of_mem _ hmem)
      obtain ⟨hscan, hlexemes⟩ := ih hsources
      rw [String.intercalate_cons_cons, List.flatMap_cons, ← hlexemes]
      refine scan_append (h source List.mem_cons_self).1 hscan fun hindent => ?_
      have hhead : ∀ l ∈ (streamOf ("\n".intercalate (next :: sources))).lexemes.head?,
          l = .fnWord := by
        rw [hlexemes]
        exact TokenStream.head?_flatMap fun source hmem => (hsources source hmem).2
      cases hhead _ hindent

/-- Texts of definitions, each on lines of its own, parse together as they do one by one. -/
theorem parse_intercalate {units : List (String × Tree)}
    (h : ∀ u ∈ units, parse u.1 = .ok u.2 ∧ ∀ t ∈ u.2.items, ¬ t.IsStatement) :
    ∃ tree, parse ("\n".intercalate (units.map Prod.fst)) = .ok tree ∧
      List.Forall₂ ItemAlike (units.flatMap fun u => u.2.items) tree.items := by
  have htexts : ∀ u ∈ units, (scan u.1).complaints = [] ∧ (streamOf u.1).OfDefinitions ∧
      u.2.items = itemsOf (streamOf u.1) := by
    intro u hu
    obtain ⟨hparse, hdefinitions⟩ := h u hu
    obtain ⟨hscan, hread, htree⟩ := parse_ok_iff.1 hparse
    have hitems : u.2.items = itemsOf (streamOf u.1) := by rw [← htree, items_program]
    exact ⟨hscan, ⟨scan_whole hscan, hread, hitems ▸ hdefinitions⟩, hitems⟩
  have hsources : ∀ source ∈ units.map Prod.fst, (scan source).complaints = [] ∧
      ∀ l ∈ (streamOf source).lexemes.head?, l = .fnWord := by
    intro source hsource
    obtain ⟨u, hu, rfl⟩ := List.mem_map.1 hsource
    exact ⟨(htexts u hu).1, (htexts u hu).2.1.head⟩
  obtain ⟨hscan, hlexemes⟩ := scan_intercalate hsources
  have hdefinitions : ∀ a ∈ units.map fun u => streamOf u.1, a.OfDefinitions := by
    intro a ha
    obtain ⟨u, hu, rfl⟩ := List.mem_map.1 ha
    exact (htexts u hu).2.1
  have hwhole : (streamOf ("\n".intercalate (units.map Prod.fst))).Whole := scan_whole hscan
  obtain ⟨hread, hitems⟩ := TokenStream.itemsOf_texts hdefinitions hwhole
    (by rw [hlexemes]; simp [List.flatMap_map])
  refine ⟨_, parse_ok_iff.2 ⟨hscan, hread, rfl⟩, ?_⟩
  rw [List.flatMap_map] at hitems
  rw [items_program, show (units.flatMap fun u => u.2.items) =
    units.flatMap fun u => itemsOf (streamOf u.1) from
      List.flatMap_congr fun u hu => (htexts u hu).2.2]
  exact hitems

end Abacus
