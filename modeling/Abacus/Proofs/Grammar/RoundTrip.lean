import Abacus.Proofs.Grammar.Blocks
import Abacus.Proofs.Grammar.Printing

/-!
# Parsing undoes printing

The text of a program of the grammar is accepted, and its tree is the tree of the program.

* `Expression.unplaced_tree`, `Statement.unplaced_tree` — the trees of programs are at no place;
* `Statement.eof_not_mem` — the end of the text is not spelt;
* `parse_print` — parsing undoes printing.
-/

namespace Abacus.Grammar

open Abacus.Parser (maxNesting)
open TokenStream (ofTokens bare)

/-! ## Trees at no place -/

mutual

theorem Expression.unplaced_tree : ∀ e : Expression, e.tree.unplaced = e.tree
  | .integer _ | .floating .. | .variable _ => rfl
  | .infixOp op left right => by
    rw [Expression.tree, nowhere, Tree.unplaced_node, Shape.map, left.unplaced_tree,
      right.unplaced_tree]
  | .negate operand => by
    rw [Expression.tree, nowhere, Tree.unplaced_node, Shape.map, operand.unplaced_tree]
  | .call name arguments => by
    rw [Expression.tree, nowhere, nowhere, Tree.unplaced_node, Shape.map, Tree.unplaced_node, Shape.map,
      arguments.unplaced_trees]

theorem Arguments.unplaced_trees : ∀ arguments : Arguments,
    arguments.trees.map Tree.unplaced = arguments.trees
  | .nil => rfl
  | .cons first rest => by
    rw [Arguments.trees, List.map_cons, first.unplaced_tree, rest.unplaced_trees]

end

mutual

theorem Statement.unplaced_tree : ∀ s : Statement, s.tree.unplaced = s.tree
  | .letVar name value => by
    rw [Statement.tree, nowhere, Tree.unplaced_node, Shape.map, value.unplaced_tree]
  | .setVar name value => by
    rw [Statement.tree, nowhere, Tree.unplaced_node, Shape.map, value.unplaced_tree]
  | .giveBack value => by
    rw [Statement.tree, nowhere, Tree.unplaced_node, Shape.map, value.unplaced_tree]
  | .expression value => value.unplaced_tree
  | .ifThen condition thenBody => by
    simp only [Statement.tree, nowhere, Tree.unplaced_node, Shape.map, Option.map_none,
      condition.unplaced_tree, thenBody.unplaced_trees]
  | .ifElse condition thenBody elseBody => by
    simp only [Statement.tree, nowhere, Tree.unplaced_node, Shape.map, Option.map_some,
      condition.unplaced_tree, thenBody.unplaced_trees, elseBody.unplaced_trees]
  | .forLoop index bound body => by
    simp only [Statement.tree, nowhere, Tree.unplaced_node, Shape.map, bound.unplaced_tree,
      body.unplaced_trees]

theorem Body.unplaced_trees : ∀ b : Body, b.trees.map Tree.unplaced = b.trees
  | .last s => by rw [Body.trees, List.map_singleton, s.unplaced_tree]
  | .cons first rest => by rw [Body.trees, List.map_cons, first.unplaced_tree, rest.unplaced_trees]

end

theorem unplaced_programTree (p : Program) : (programTree p).unplaced = programTree p := by
  have hitem : ∀ t : TopLevel, t.tree.unplaced = t.tree := by
    intro t
    cases t with
    | function name parameters b =>
      simp only [TopLevel.tree, nowhere, Tree.unplaced_node, Shape.map, b.unplaced_trees]
    | statement s => exact s.unplaced_tree
  simp only [programTree, nowhere, Tree.unplaced_node, Shape.map, List.map_map]
  exact congrArg _ (congrArg _ (List.map_congr_left fun t _ => hitem t))

/-! ## The end of the text -/

theorem Expression.eof_not_mem (e : Expression) : Lexeme.eof ∉ e.lexemes := by
  intro hmem
  cases e.inExpression_of_mem hmem

theorem eof_not_mem_block {ls : List Lexeme} (h : Lexeme.eof ∉ ls) : Lexeme.eof ∉ blockLexemes ls := by
  simp [blockLexemes, h]

mutual

theorem Statement.eof_not_mem : ∀ s : Statement, Lexeme.eof ∉ s.lexemes
  | .letVar _ value | .setVar _ value | .giveBack value | .expression value => by
    simp [Statement.lexemes, value.eof_not_mem]
  | .ifThen condition thenBody => by
    simp [Statement.lexemes, condition.eof_not_mem, eof_not_mem_block thenBody.eof_not_mem]
  | .ifElse condition thenBody elseBody => by
    simp [Statement.lexemes, condition.eof_not_mem, eof_not_mem_block thenBody.eof_not_mem,
      eof_not_mem_block elseBody.eof_not_mem]
  | .forLoop _ bound body => by
    simp [Statement.lexemes, bound.eof_not_mem, eof_not_mem_block body.eof_not_mem]

theorem Body.eof_not_mem : ∀ b : Body, Lexeme.eof ∉ b.lexemes
  | .last s => s.eof_not_mem
  | .cons first rest => by simp [Body.lexemes, first.eof_not_mem, rest.eof_not_mem]

end

theorem eof_not_mem_program (p : Program) : Lexeme.eof ∉ programLexemes p := by
  have hitem : ∀ t : TopLevel, Lexeme.eof ∉ t.lexemes := by
    intro t
    cases t with
    | statement s => exact s.eof_not_mem
    | function name parameters b =>
      have hnames : Lexeme.eof ∉
          [Lexeme.comma].intercalate (parameters.map fun p => [Lexeme.ident p.text]) := by
        intro hmem
        obtain hmem | ⟨ls, hls, hmem⟩ := mem_intercalate hmem
        · simp at hmem
        · obtain ⟨p, -, rfl⟩ := List.mem_map.1 hls
          simp at hmem
      simp [TopLevel.lexemes, parenthesise, hnames, eof_not_mem_block b.eof_not_mem]
  intro hmem
  obtain ⟨t, -, ht⟩ := List.mem_flatMap.1 hmem
  exact hitem t ht

/-! ## Parsing undoes printing -/

/-- The tokens of a printed program are those that it is spelt with. -/
theorem stream_print {step : Nat} (hstep : 0 < step) (p : Program) :
    (bare [] (programLexemes p)).Alike (ofTokens (scan (print step p)).tokens) ∧
      (scan (print step p)).complaints = [] := by
  have hread := readLines_print hstep p
  have hlexemes : (scan (print step p)).tokens.map Token.lexeme = programLexemes p ++ [Lexeme.eof] := by
    rw [lexemes_scan, hread, List.filterMap_map]
    exact List.filterMap_some
  have hcomplaints : (scan (print step p)).complaints.map Diagnostic.unplaced = [] := by
    rw [complaints_scan, hread, List.filterMap_map]
    exact List.filterMap_eq_nil_iff.2 fun _ _ => rfl
  refine ⟨⟨?_, rfl, rfl⟩, List.map_eq_nil_iff.1 hcomplaints⟩
  have hneof : ∀ l ∈ programLexemes p, decide (l ≠ .eof) = true := by
    intro l hl
    refine decide_eq_true ?_
    rintro rfl
    exact eof_not_mem_program p hl
  rw [TokenStream.lexemes_bare, TokenStream.lexemes_ofTokens, hlexemes,
    List.takeWhile_append_of_pos hneof]
  simp

/-- A text with the tokens of a program that nests no deeper than a parser goes is accepted, and up to
places its tree is the tree of the program. -/
theorem parse_of_alike {text : String} {p : Program} (hnesting : ∀ t ∈ p, t.nesting ≤ maxNesting)
    (halike : (bare [] (programLexemes p)).Alike (ofTokens (scan text).tokens))
    (hscan : (scan text).complaints = []) :
    ∃ tree, parse text = .ok tree ∧ tree.unplaced = programTree p := by
  obtain ⟨htree, hafter⟩ := Abacus.Parser.agrees_program _ _ halike
  have hspelt := Abacus.Parser.program_spelt p hnesting [] [] rfl
  rw [List.append_nil, List.nil_append] at hspelt
  rw [hspelt] at htree hafter
  have hquiet : (Abacus.Parser.program (ofTokens (scan text).tokens)).2.complaints = #[] :=
    Array.toList_eq_nil_iff.1 (List.map_eq_nil_iff.1 hafter.complaints.symm)
  refine ⟨_, ?_, htree.symm.trans (unplaced_programTree p)⟩
  rw [parse, hscan, parseTokens_eq, hquiet]
  rfl

/-- Parsing undoes printing. Every program of the grammar that nests no deeper than a parser goes is
printed, with its bodies indented by any number of blanks more than the lines that they belong to, to a
text that is accepted, and up to places its tree is the tree of the program. -/
theorem parse_print {step : Nat} (hstep : 0 < step) (p : Program)
    (hnesting : ∀ t ∈ p, t.nesting ≤ maxNesting) :
    ∃ tree, parse (print step p) = .ok tree ∧ tree.unplaced = programTree p ∧
      tree.sexpr = (programTree p).sexpr := by
  obtain ⟨halike, hscan⟩ := stream_print hstep p
  obtain ⟨tree, hparse, hunplaced⟩ := parse_of_alike hnesting halike hscan
  refine ⟨tree, hparse, hunplaced, ?_⟩
  rw [← hunplaced]
  exact (Tree.sexpr_unplaced _).symm

/-- Some names of one letter. -/
def letters : Fin 5 → Name
  | 0 => ⟨"a", by decide, by decide⟩
  | 1 => ⟨"b", by decide, by decide⟩
  | 2 => ⟨"f", by decide, by decide⟩
  | 3 => ⟨"i", by decide, by decide⟩
  | 4 => ⟨"x", by decide, by decide⟩

/-- A function whose last line ends three bodies, and a call with a comparison of a comparison. -/
def nestedBodies : Program :=
  let a := Expression.variable (letters 0)
  let b := Expression.variable (letters 1)
  let i := Expression.variable (letters 3)
  let x := Expression.variable (letters 4)
  [.function (letters 2) [letters 0, letters 1] <|
      .last <| .ifElse (.infixOp .less a b)
        (.last <| .giveBack (.infixOp .mul (.infixOp .add a b) (.negate (.infixOp .add a b))))
        (.last <| .forLoop (letters 3) (.integer 3) <|
          .last <| .setVar (letters 0) (.infixOp .sub a (.infixOp .sub i b))),
    .statement (.letVar (letters 4)
      (.floating ⟨['1'], by decide, by simp⟩ ⟨['5', '0'], by decide, by simp⟩)),
    .statement (.expression (.call (letters 2)
      (.cons x (.cons (.infixOp .equal (.infixOp .less x a) (.integer 0)) .nil))))]

theorem parse_print_nestedBodies :
    print 2 nestedBodies = "fn f(a, b)\n  if a < b\n    return (a + b) * -(a + b)\n  else\n" ++
      "    for i < 3\n      a = a - (i - b)\nlet x = 1.50\nf(x, (x < a) == 0)\n" ∧
    ∃ tree, parse (print 2 nestedBodies) = .ok tree ∧ tree.unplaced = programTree nestedBodies ∧
      tree.sexpr = (programTree nestedBodies).sexpr :=
  ⟨by decide +kernel, parse_print (by decide) nestedBodies (by decide)⟩

end Abacus.Grammar
