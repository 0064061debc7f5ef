import Abacus.Proofs.Source.Parsing
import Abacus.Proofs.Tree.Building

/-!
# Names of callees

The name of a function that is called comes from a token of the text, and the names among the tokens
are made of letters, digits and underscores. Nothing of the kind holds of a tree that is built by hand.

* `Tree.CallsOnly` — what holds of the names of all functions that are called in a tree;
* `Tree.builtUp_callsOnly` — it holds of trees built of others if it holds of those;
* `isName_of_scan` — the names among the tokens of a text are names;
* `parse_callsOnly` — the functions that are called in a text have names.
-/

namespace Abacus

/-- The names of all functions that are called in the tree are good. -/
inductive Tree.CallsOnly (good : String → Prop) : Tree → Prop
  | node {span : Span} {shape : Shape Tree} : (∀ t ∈ shape.children, CallsOnly good t) →
      (∀ name arguments, shape = .call name arguments → good name) →
      CallsOnly good (.node span shape)

namespace Tree.CallsOnly

variable {good : String → Prop} {span : Span} {shape : Shape Tree} {t : Tree}

theorem children (h : CallsOnly good (.node span shape)) : ∀ t ∈ shape.children, CallsOnly good t := by
  obtain ⟨h, -⟩ := h
  exact h

theorem callee {name : String} {arguments : Tree}
    (h : CallsOnly good (.node span (.call name arguments))) : good name := by
  obtain ⟨-, h⟩ := h
  exact h name arguments rfl

theorem items (h : CallsOnly good t) : ∀ u ∈ t.items, CallsOnly good u := by
  obtain @⟨span, shape, h, -⟩ := h
  cases shape with
  | program items | list items => exact h
  | _ => exact fun u hu => absurd hu (by simp [Tree.items])

end Tree.CallsOnly

/-- A tree is good in this way if it is built of good trees, whatever room there was for nesting. -/
theorem Tree.builtUp_callsOnly (good : String → Prop) :
    Tree.BuiltUp good (fun _ => Tree.CallsOnly good) fun _ => Tree.CallsOnly good where
  leaf {_ _ shape} h := by
    refine .node (by simp [h]) ?_
    rintro name arguments rfl
    cases h
  enclosed h := h
  infixOp hleft hright := .node (List.forall_mem_cons.2 ⟨hleft, List.forall_mem_singleton.2 hright⟩) nofun
  negate h := .node (List.forall_mem_singleton.2 h) nofun
  call {_ _ _ name _} hname h := by
    refine .node (List.forall_mem_singleton.2 (.node h nofun)) ?_
    rintro _ _ ⟨⟩
    exact hname
  body h := .node h nofun
  expression h := h
  statement h hcall := .node h fun name arguments hshape => absurd hshape (hcall name arguments)

/-! ## Names of a text -/

/-- The text consists of letters, digits and underscores. -/
def IsName (text : String) : Prop := ∀ c ∈ text.toList, isNamePart c = true

/-- The names among the items are names. -/
def ItemNames (items : List Item) : Prop :=
  ∀ item ∈ items, ∀ token, item = .token token → token.lexeme.NamesOnly IsName

theorem ItemNames.append {items later : List Item} (h : ItemNames items) (hlater : ItemNames later) :
    ItemNames (items ++ later) :=
  fun item hmem => (List.mem_append.1 hmem).elim (h item) (hlater item)

theorem ItemNames.cons {item : Item} {later : List Item}
    (h : ∀ token, item = .token token → token.lexeme.NamesOnly IsName) (hlater : ItemNames later) :
    ItemNames (item :: later) :=
  fun other hmem => (List.mem_cons.1 hmem).elim (fun heq => heq ▸ h) (hlater other)

theorem itemNames_tabComplaints (c : Cursor) (n : Nat) : ItemNames (tabComplaints c n) := by
  induction n generalizing c with
  | zero => exact fun item hmem => absurd hmem List.not_mem_nil
  | succ n ih =>
    unfold tabComplaints
    dsimp only
    split
    · exact .cons (by rintro token ⟨⟩) (ih _)
    · exact ih _

theorem itemNames_layout (levels : List Nat) (width : Nat) (span : Span) :
    ItemNames (layout levels width span).1 := by
  have hdedents : ItemNames ((levels.takeWhile (width < ·)).map fun _ => .token ⟨.dedent, span⟩) := by
    intro item hmem token htoken name hname
    obtain ⟨_, -, rfl⟩ := List.mem_map.1 hmem
    cases htoken
    cases hname
  unfold layout
  split
  · exact .cons (by rintro _ ⟨⟩; exact nofun) (fun item hmem => absurd hmem List.not_mem_nil)
  · dsimp only
    split
    · exact hdedents
    · exact hdedents.append (.cons nofun fun item hmem => absurd hmem List.not_mem_nil)

theorem itemNames_closing (levels : List Nat) (c : Cursor) : ItemNames (closing levels c) := by
  refine .append ?_ (.cons (by rintro _ ⟨⟩; exact nofun) fun item hmem => absurd hmem List.not_mem_nil)
  intro item hmem token htoken name hname
  obtain ⟨_, -, rfl⟩ := List.mem_map.1 hmem
  cases htoken
  cases hname

/-- A name goes on as long as there are letters, digits and underscores. -/
theorem namesOnly_lexemeAt {chars : List Char} {l : Lexeme} (h : (lexemeAt chars).1 = .ok l) :
    l.NamesOnly IsName := by
  rintro name rfl
  unfold lexemeAt at h
  split at h
  · cases h
  · next c rest =>
    split at h
    · next hstart =>
      dsimp only at h
      have hname : name = String.ofList (c :: rest.takeWhile isNamePart) := by
        cases hkeyword : Lexeme.keyword? (String.ofList (c :: rest.takeWhile isNamePart)) with
        | none =>
          rw [hkeyword] at h
          cases h
          rfl
        | some l =>
          rw [hkeyword] at h
          cases h
          unfold Lexeme.keyword? at hkeyword
          split at hkeyword <;> cases hkeyword
      intro d hd
      rw [hname, String.toList_ofList] at hd
      rcases List.mem_cons.1 hd with rfl | hd
      · unfold isNameStart at hstart
        unfold isNamePart Char.isAlphanum
        grind
      · exact List.all_eq_true.1 List.all_takeWhile d hd
    · split at h
      · split at h
        · cases h
        · split at h <;> cases h
      · split at h
        · cases h
        · split at h
          · next symbol hsymbol =>
            cases h
            unfold Lexeme.symbol? at hsymbol
            split at hsymbol <;> cases hsymbol
          · cases h

theorem itemNames_lines : (∀ levels c, ItemNames (lineStart levels c)) ∧
    ∀ levels c, ItemNames (lineRest levels c) := by
  apply line_induction
  case start_nil =>
    intro levels c hrest
    rw [lineStart_of_nil hrest]
    exact (itemNames_tabComplaints _ _).append (itemNames_closing _ _)
  case start_newline =>
    intro levels c rest hrest ih
    rw [lineStart_of_newline hrest]
    exact (itemNames_tabComplaints _ _).append ih
  case start_text =>
    intro levels c d rest hrest hd ih
    rw [lineStart_of_text hrest hd]
    exact (itemNames_tabComplaints _ _).append ((itemNames_layout _ _ _).append (ih _))
  case within_nil =>
    intro levels c hrest
    rw [lineRest_of_nil hrest]
    exact .cons (by rintro _ ⟨⟩; exact nofun) (itemNames_closing _ _)
  case within_newline =>
    intro levels c rest hrest ih
    rw [lineRest_of_newline hrest]
    exact .cons (by rintro _ ⟨⟩; exact nofun) ih
  case within_text =>
    intro levels c d rest hrest hd ih
    rw [lineRest_of_text hrest hd]
    refine .cons (fun token htoken => ?_) ih
    unfold scanToken at htoken
    rcases hlexeme : lexemeAt c.skipBlanks.rest with ⟨message | l, n⟩ <;> rw [hlexeme] at htoken
    · cases htoken
    · cases htoken
      exact namesOnly_lexemeAt (congrArg Prod.fst hlexeme)

/-- The names among the tokens of a text are names. -/
theorem isName_of_scan (text : String) : (streamOf text).NamesOnly IsName := by
  intro token hmem
  have hmem := (List.takeWhile_sublist _).subset hmem
  obtain ⟨item, hitem, htoken⟩ := List.mem_filterMap.1 hmem
  cases item with
  | token t =>
    cases htoken
    exact itemNames_lines.1 _ _ _ hitem token rfl
  | complaint d => cases htoken

/-- The functions that are called in a text have names. -/
theorem parse_callsOnly {source : String} {tree : Tree} (h : parse source = .ok tree) :
    tree.CallsOnly IsName := by
  obtain ⟨-, -, rfl⟩ := parse_ok_iff.1 h
  obtain ⟨⟨span, items, heq, hitems⟩, -⟩ :=
    Parser.passes_program (Tree.builtUp_callsOnly IsName) _ (isName_of_scan source)
  rw [heq]
  exact .node hitems nofun

end Abacus
