import Abacus.Proofs.Session.Batches
import Abacus.Proofs.Source.LineByLine

/-!
# Blank lines and comments

Lines without text, and what stands behind the text of a line, change nothing but places: the reader
gives the same lexemes and complaints, so the parser makes the same tree, which is lowered to the same
module or refused for the same reason.

* `IsPadding`, `Edited` — texts with blank lines and comments put in;
* `readLines_edited` — the lines give the same;
* `parse_edited` — the trees say the same;
* `compile_edited` — the modules are the same.
-/

namespace Abacus

/-- Blanks without width in a text that is read, with a comment behind them if anything: spaces and
carriage returns up to the first `#`. -/
def IsPadding (padding : List Char) : Prop := ∀ d ∈ padding.takeWhile (· ≠ '#'), d = ' ' ∨ d = '\r'

instance (padding : List Char) : Decidable (IsPadding padding) :=
  List.decidableBAll (fun d => d = ' ' ∨ d = '\r') (padding.takeWhile (· ≠ '#'))

/-- Lines of padding are put between the lines, and padding is put behind lines. -/
inductive Edited : List (List Char) → List (List Char) → Prop
  | nil : Edited [] []
  | keep {lines edited padding} (line : List Char) : IsPadding padding → Edited lines edited →
      Edited (line :: lines) ((line ++ padding) :: edited)
  | insert {lines edited padding} : IsPadding padding → Edited lines edited →
      Edited lines (padding :: edited)

/-! ## One line -/

section

variable {padding line : List Char} {levels : List Nat}

theorem IsPadding.tail {d : Char} (h : IsPadding (d :: padding)) (hd : d ≠ '#') :
    (d = ' ' ∨ d = '\r') ∧ IsPadding padding := by
  unfold IsPadding at h
  rw [List.takeWhile_cons_of_pos (by simpa using hd), List.forall_mem_cons] at h
  exact h

/-- Padding is blank up to a comment, and there is no tab in it. -/
theorem IsPadding.noText (h : IsPadding padding) :
    NoText (padding.dropWhile isBlank) ∧ tabsIn (padding.takeWhile isBlank) = [] := by
  induction padding with
  | nil => exact ⟨.inl rfl, rfl⟩
  | cons d padding ih =>
    by_cases hd : d = '#'
    · subst hd
      exact ⟨.inr rfl, rfl⟩
    · obtain ⟨hblank, hpadding⟩ := h.tail hd
      obtain ⟨htext, htabs⟩ := ih hpadding
      have hisBlank : isBlank d = true := by rcases hblank with rfl | rfl <;> rfl
      have htab : d ≠ '\t' := by rcases hblank with rfl | rfl <;> decide
      rw [List.dropWhile_cons_of_pos hisBlank, List.takeWhile_cons_of_pos hisBlank]
      refine ⟨htext, ?_⟩
      rw [tabsIn, List.filter_cons_of_neg (by simpa using htab)]
      exact htabs

theorem IsPadding.delimits (h : IsPadding padding) : Delimits padding := by
  intro d hd
  obtain ⟨rest, rfl⟩ := List.head?_eq_some_iff.1 hd
  by_cases hcomment : d = '#'
  · subst hcomment
    decide
  · rcases (h.tail hcomment).1 with rfl | rfl <;> decide

/-- A line of padding gives nothing. -/
theorem readLine_padding (h : IsPadding padding) : readLine levels padding = ([], levels) := by
  rw [readLine, if_pos h.noText.1, h.noText.2]

/-- Blanks are skipped up to the same place of the line, if there is text or a comment on it. -/
theorem blanks_append (h : line.dropWhile isBlank ≠ []) (tail : List Char) :
    (line ++ tail).takeWhile isBlank = line.takeWhile isBlank ∧
      (line ++ tail).dropWhile isBlank = line.dropWhile isBlank ++ tail := by
  have hdrop : (line ++ tail).dropWhile isBlank = line.dropWhile isBlank ++ tail := by
    rw [List.dropWhile_append, if_neg (by simpa using h)]
  refine ⟨(List.append_left_inj (line.dropWhile isBlank ++ tail)).1 ?_, hdrop⟩
  rw [← hdrop, List.takeWhile_append_dropWhile, hdrop, ← List.append_assoc,
    List.takeWhile_append_dropWhile]

/-- A line of blanks and of padding is one of blanks up to a comment. -/
theorem blanks_padding (h : line.dropWhile isBlank = []) (hpadding : IsPadding padding) :
    NoText ((line ++ padding).dropWhile isBlank) ∧
      tabsIn ((line ++ padding).takeWhile isBlank) = tabsIn (line.takeWhile isBlank) := by
  have hall : ∀ d ∈ line, isBlank d = true := List.dropWhile_eq_nil_iff.1 h
  rw [List.dropWhile_append_of_pos hall, List.takeWhile_append_of_pos hall,
    List.takeWhile_eq_self_iff.2 hall]
  refine ⟨hpadding.noText.1, ?_⟩
  have htabs := hpadding.noText.2
  unfold tabsIn at htabs ⊢
  rw [List.filter_append, List.map_append, htabs, List.append_nil]

theorem noText_append (h : line ≠ []) (tail : List Char) : NoText (line ++ tail) ↔ NoText line := by
  obtain ⟨d, rest, rfl⟩ := List.exists_cons_of_ne_nil h
  simp [NoText]

/-- Behind the text of a line, padding gives nothing. -/
theorem pieces_padding (h : IsPadding padding) : pieces (line ++ padding) = pieces line := by
  fun_induction pieces line
  case case1 line text hno =>
    rw [pieces]
    refine dif_pos ?_
    by_cases hnil : text = []
    · exact (blanks_padding hnil h).1
    · rw [(blanks_append hnil padding).2]
      exact (noText_append hnil padding).2 hno
  case case2 line text htext ih =>
    have hne : text ≠ [] := fun hnil => htext (.inl hnil)
    have hskip : (line ++ padding).dropWhile isBlank = text ++ padding := (blanks_append hne _).2
    rw [pieces, dif_neg (by rwa [hskip, noText_append hne]), hskip,
      lexemeAt_append_tail hne h.delimits, List.drop_append_of_le_length (lexemeAt_le hne), ih]

/-- With padding behind it, a line gives the same. -/
theorem readLine_append_padding (h : IsPadding padding) :
    readLine levels (line ++ padding) = readLine levels line := by
  unfold readLine
  by_cases hnil : line.dropWhile isBlank = []
  · obtain ⟨hno, htabs⟩ := blanks_padding hnil h
    rw [if_pos hno, if_pos (.inl hnil), htabs]
  · obtain ⟨hblanks, hskip⟩ := blanks_append hnil padding
    simp only [hblanks, hskip, noText_append hnil, pieces_padding h]

end

/-! ## Texts -/

/-- A result of reading a text, up to places. -/
def Unplaced {α : Type} (place : α → α) : Except (List Diagnostic) α → Except (List Diagnostic) α
  | .ok a => .ok (place a)
  | .error ds => .error (ds.map Diagnostic.unplaced)

/-- Edited lines give the same. -/
theorem readLines_edited {lines edited : List (List Char)} (h : Edited lines edited)
    (levels : List Nat) : readLines levels edited = readLines levels lines := by
  induction h generalizing levels with
  | nil => rfl
  | keep line hpadding _ ih => rw [readLines, readLines, readLine_append_padding hpadding, ih]
  | insert hpadding _ ih => rw [readLines, readLine_padding hpadding, List.nil_append, ih]

/-- Tokens of the same lexemes are parsed to trees that say the same, or the same is complained about
in the same order. -/
theorem parseTokens_unplaced {tokens tokens' : List Token}
    (h : tokens.map Token.lexeme = tokens'.map Token.lexeme) :
    Unplaced Tree.unplaced (parseTokens tokens) = Unplaced Tree.unplaced (parseTokens tokens') := by
  obtain ⟨htree, hafter⟩ := Parser.agrees_program _ _ (TokenStream.alike_ofTokens h)
  have hcomplaints := hafter.complaints
  have hempty : (Parser.program (TokenStream.ofTokens tokens)).2.complaints.isEmpty =
      (Parser.program (TokenStream.ofTokens tokens')).2.complaints.isEmpty := by
    have hlength := congrArg List.length hcomplaints
    simp only [List.length_map, Array.length_toList] at hlength
    simp only [Array.isEmpty, hlength]
  rw [parseTokens_eq, parseTokens_eq, hempty]
  split
  · exact congrArg Except.ok htree
  · exact congrArg Except.error hcomplaints

/-- A text that is edited has a tree that says the same, or the same is complained about in the same
order. -/
theorem parse_edited {source edited : String} (h : Edited (linesOf source) (linesOf edited)) :
    Unplaced Tree.unplaced (parse source) = Unplaced Tree.unplaced (parse edited) := by
  have hlines := readLines_edited h [0]
  have htokens : (scan source).tokens.map Token.lexeme = (scan edited).tokens.map Token.lexeme := by
    rw [lexemes_scan, lexemes_scan, hlines]
  have hcomplaints : (scan source).complaints.map Diagnostic.unplaced =
      (scan edited).complaints.map Diagnostic.unplaced := by
    rw [complaints_scan, complaints_scan, hlines]
  have hempty : (scan source).complaints.isEmpty = (scan edited).complaints.isEmpty := by
    rw [← List.isEmpty_map (f := Diagnostic.unplaced), hcomplaints, List.isEmpty_map]
  unfold parse
  dsimp only
  rw [hempty]
  split
  · exact parseTokens_unplaced htokens
  · exact congrArg Except.error hcomplaints

/-! ## Modules -/

theorem Lowering.LoweringError.diagnostic_unplaced {e e' : Lowering.LoweringError}
    (h : e.cause = e'.cause) : e.diagnostic.unplaced = e'.diagnostic.unplaced := by
  obtain ⟨cause, span⟩ := e
  obtain ⟨cause', span'⟩ := e'
  obtain rfl : cause = cause' := h
  cases cause with
  | unknown kind => cases kind <;> rfl
  | _ => rfl

/-- Trees that say the same compile to the same module, or are refused for the same reason. -/
theorem compile_unplaced (options : Lowering.Options) {source edited : String}
    (h : Unplaced Tree.unplaced (parse source) = Unplaced Tree.unplaced (parse edited)) :
    Unplaced id (compile options source) = Unplaced id (compile options edited) := by
  unfold compile
  cases hsource : parse source with
  | error ds =>
    cases hedited : parse edited with
    | error ds' =>
      rw [hsource, hedited] at h
      exact congrArg Except.error (Except.error.inj h)
    | ok tree' => simp [hsource, hedited, Unplaced] at h
  | ok tree =>
    cases hedited : parse edited with
    | error ds' => simp [hsource, hedited, Unplaced] at h
    | ok tree' =>
      rw [hsource, hedited] at h
      have htree : tree.unplaced = tree'.unplaced := Except.ok.inj h
      have hitems : tree.items.map Tree.unplaced = tree'.items.map Tree.unplaced := by
        rw [← Tree.items_unplaced, htree, Tree.items_unplaced]
      have hagree := Lowering.lowerUnit_agree options [] Lowering.defaultUnitName hitems
      show Unplaced id (compileTree options [] _ tree >>= fun emission => .ok emission.module) =
        Unplaced id (compileTree options [] _ tree' >>= fun emission => .ok emission.module)
      unfold compileTree
      rcases hagree.ok_or_error fun e he => Session.cause_ne_internal hedited he with
        ⟨emission, _, hlower, hlower', rfl⟩ | ⟨e, e', hlower, hlower', hcause⟩
      · rw [hlower, hlower']
      · rw [hlower, hlower']
        exact congrArg (fun d => Except.error [d]) (Lowering.LoweringError.diagnostic_unplaced hcause)

/-- Blank lines and comments change nothing but places. For every text and every text that comes of it
by lines of spaces and carriage returns, with a comment or without, put in between its lines and by
spaces and comments put behind its lines: if the one compiles then the other compiles to the same
module, with the same text and the same hashes, and if the one is refused then the other is refused, and
the same is said of it in the same order. -/
theorem compile_edited (options : Lowering.Options) {source edited : String}
    (h : Edited (linesOf source) (linesOf edited)) :
    (∀ m, compile options source = .ok m → compile options edited = .ok m) ∧
      ∀ ds, compile options source = .error ds → ∃ ds', compile options edited = .error ds' ∧
        ds'.map Diagnostic.unplaced = ds.map Diagnostic.unplaced := by
  have hcompile := compile_unplaced options (parse_edited h)
  refine ⟨fun m hm => ?_, fun ds hds => ?_⟩
  · rw [hm] at hcompile
    cases hedited : compile options edited with
    | ok m' =>
      rw [hedited] at hcompile
      exact hcompile.symm
    | error ds' => simp [hedited, Unplaced] at hcompile
  · rw [hds] at hcompile
    cases hedited : compile options edited with
    | ok m' => simp [hedited, Unplaced] at hcompile
    | error ds' =>
      rw [hedited] at hcompile
      exact ⟨ds', rfl, (Except.error.inj hcompile).symm⟩

/-- A function with a comment at the outermost level in its body and a blank line of carriage returns
behind it, and a call of an unknown function behind a comment. -/
theorem compile_commented :
    (∃ m, compile Lowering.Options.default "fn f(a)\n  let b = a\n  b + 1\nf(3)\n" = .ok m ∧
      compile Lowering.Options.default
        "fn f(a) # one more\n  let b = a\n# here\n  b + 1\n \r\nf(3)#4\n      # end" = .ok m) ∧
    ∃ d', compile Lowering.Options.default "# g\ng(1)  " = .error [d'] ∧
      d'.message = "unknown function `g`" := by
  have hedited : Edited (linesOf "fn f(a)\n  let b = a\n  b + 1\nf(3)\n")
      (linesOf "fn f(a) # one more\n  let b = a\n# here\n  b + 1\n \r\nf(3)#4\n      # end") := by
    have hsource : linesOf "fn f(a)\n  let b = a\n  b + 1\nf(3)\n" =
        ["fn f(a)".toList, "  let b = a".toList, "  b + 1".toList, "f(3)".toList, []] := by
      decide +kernel
    have hlines : linesOf
        "fn f(a) # one more\n  let b = a\n# here\n  b + 1\n \r\nf(3)#4\n      # end" =
        ["fn f(a)".toList ++ " # one more".toList, "  let b = a".toList ++ [], "# here".toList,
          "  b + 1".toList ++ [], " \r".toList, "f(3)".toList ++ "#4".toList,
          [] ++ "      # end".toList] := by
      decide +kernel
    rw [hsource, hlines]
    exact .keep _ (by decide) <| .keep _ (by decide) <| .insert (by decide) <| .keep _ (by decide) <|
      .insert (by decide) <| .keep _ (by decide) <| .keep _ (by decide) .nil
  have hrefused : Edited (linesOf "g(1)") (linesOf "# g\ng(1)  ") := by
    have hsource : linesOf "g(1)" = ["g(1)".toList] := by decide +kernel
    have hlines : linesOf "# g\ng(1)  " = ["# g".toList, "g(1)".toList ++ "  ".toList] := by
      decide +kernel
    rw [hsource, hlines]
    exact .insert (by decide) <| .keep _ (by decide) .nil
  constructor
  · obtain ⟨m, hm, -⟩ := Lowering.exists_ok_of_map (f := fun _ => ()) (b := ())
      (x := compile Lowering.Options.default "fn f(a)\n  let b = a\n  b + 1\nf(3)\n")
      (by decide +kernel)
    exact ⟨m, hm, (compile_edited .default hedited).1 m hm⟩
  · have hsource : compile Lowering.Options.default "g(1)" =
        .error [⟨.error, "unknown function `g`", ⟨0, 4, 1, 1⟩,
          ["functions must be defined before they are called"], none⟩] := by
      decide +kernel
    obtain ⟨ds', hds', hsame⟩ := (compile_edited .default hrefused).2 _ hsource
    obtain ⟨d', rfl, hd'⟩ := List.map_eq_singleton_iff.1 hsame
    exact ⟨d', hds', congrArg Diagnostic.message hd'⟩

end Abacus
