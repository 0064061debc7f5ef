import Abacus.Digest.Fingerprint
import Abacus.Session
import Abacus.Proofs.Listing.Lines

/-!
# A function is determined by its listing

The text of a function is a head, lines and a closing brace. The head is cut off at its brace, which is
the last one that opens, and the lines are divided into blocks by their first characters. So functions
that come out of lowering and have the same text, are the same but for what nobody can see: values
that stand in no block, and the numbers of values without content.

* `Function.SameListing` — the functions are the same as far as a listing goes;
* `Function.sameListing_of_text` — legible functions with the same text are;
* `Emitted`, `Emitted.determined` — functions of units, known from their texts and from their hashes.
-/

namespace Abacus.Flow

namespace Function

/-- The block is the same in both functions, as far as a listing goes. -/
structure SameBlock (f g : Function) (b : Block) : Prop where
  label : (f.block b).label = (g.block b).label
  preds : (f.block b).preds = (g.block b).preds
  phis : (f.block b).phis.map f.shown = (g.block b).phis.map g.shown
  insts : (f.block b).insts.toList.map f.shown = (g.block b).insts.toList.map g.shown
  ends : (f.block b).terminator?.map f.shownEnd = (g.block b).terminator?.map g.shownEnd

/-- The functions are the same as far as a listing goes. -/
structure SameListing (f g : Function) : Prop where
  name : f.name = g.name
  params : f.params = g.params
  result : f.result = g.result
  blockCount : f.blocks.size = g.blocks.size
  blocks : ∀ b, SameBlock f g b

/-! ## Texts as lines -/

variable (f g : Function)

/-- The predecessors in the head of a block; nothing is written if there are none. -/
def predsText (preds : List Block) : String :=
  if (preds.map Block.text).isEmpty then "" else "  ; preds = " ++ commas (preds.map Block.text)

/-- The first line of a block. -/
def headText (b : Block) : String :=
  b.text ++ "." ++ (f.block b).label ++ ":" ++ predsText (f.block b).preds

/-- The last line of a block. -/
def endText (b : Block) : String :=
  match (f.block b).terminator? with
  | some t => f.terminatorText t
  | none => "; <unterminated>"

/-- The lines of a block behind the first. -/
def innerLines (b : Block) : List String :=
  (((f.block b).phis ++ (f.block b).insts.toList).map f.valueText ++ [f.endText b]).map ("    " ++ ·)

/-- The lines of a function behind its head. -/
def lines : List String :=
  f.blockIds.flatMap (fun b => f.headText b :: f.innerLines b) ++ ["\x7d"]

theorem blockText_eq (b : Block) :
    f.blockText b = String.join ((f.headText b :: f.innerLines b).map (· ++ "\n")) := by
  have hlast : f.blockText b = f.headText b ++ "\n" ++
      String.join (((f.block b).phis ++ (f.block b).insts.toList).map
        fun v => "    " ++ f.valueText v ++ "\n") ++ ("    " ++ f.endText b ++ "\n") := by
    unfold blockText headText endText predsText
    rw [List.isEmpty_map]
    dsimp only
    cases (f.block b).terminator? <;> rfl
  have hinner : (f.innerLines b).map (· ++ "\n") = ((f.block b).phis ++ (f.block b).insts.toList).map
      (fun v => "    " ++ f.valueText v ++ "\n") ++ ["    " ++ f.endText b ++ "\n"] := by
    rw [innerLines, List.map_map, List.map_append, List.map_map]
    rfl
  rw [hlast, List.map_cons, String.join_cons, hinner, String.join_append, String.append_assoc,
    String.join_cons, String.join_nil, String.append_empty]

theorem join_map_join {α : Type} (parts : α → List String) (l : List α) :
    String.join (l.map fun a => String.join (parts a)) = String.join (l.flatMap parts) := by
  induction l with
  | nil => rfl
  | cons a l ih => rw [List.map_cons, String.join_cons, List.flatMap_cons, String.join_append, ih]

theorem text_eq : f.text = "fn @" ++ f.name ++ "(" ++ (commas (f.params.map Ty.text) ++ ") -> " ++
    f.result.text) ++ " \x7b" ++ ("\n" ++ String.join (f.lines.map (· ++ "\n"))) := by
  have hblocks : f.blockIds.map f.blockText = f.blockIds.map fun b =>
      String.join ((f.headText b :: f.innerLines b).map (· ++ "\n")) :=
    List.map_congr_left fun b _ => f.blockText_eq b
  have hlines : String.join (f.lines.map (· ++ "\n"))
      = String.join (f.blockIds.map f.blockText) ++ "\x7d\n" := by
    rw [lines, List.map_append, String.join_append, List.map_flatMap, ← join_map_join, hblocks]
    rfl
  have hbrace : " \x7b\n" = " \x7b" ++ "\n" := by decide
  rw [hlines, text, hbrace]
  simp only [String.append_assoc]

/-! ## Heads and lines of legible functions -/

theorem predsText_injective : Function.Injective predsText :=
  optional_injective "  ; preds = " (by decide) blocks_injective

theorem isLine_predsText (preds : List Block) : IsLine (predsText preds) := by
  unfold predsText
  split
  · decide
  · exact isLine_append.2 ⟨by decide, isLine_commas Block.isLine_text preds⟩

/-- Is the line the first of a block? -/
def isHead (line : String) : Bool := line.toList.head? = some 'b'

theorem isHead_headText (b : Block) : isHead (f.headText b) = true := by
  unfold isHead headText Block.text
  simp [String.toList_append]

theorem isHead_innerLines (b : Block) : ∀ line ∈ f.innerLines b, isHead line = false := by
  intro line hline
  obtain ⟨text, -, rfl⟩ := List.mem_map.1 hline
  unfold isHead
  rw [String.toList_append]
  rfl

variable {f g}

theorem Legible.isLine_headText (h : f.Legible) (b : Block) : IsLine (f.headText b) := by
  unfold headText
  simp only [isLine_append]
  exact ⟨⟨⟨⟨b.isLine_text, by decide⟩, isLine_of_isWord (h.labels b)⟩, by decide⟩,
    isLine_predsText _⟩

theorem Legible.isLine_valueText (h : f.Legible) (v : Value) : IsLine (f.valueText v) := by
  obtain ⟨l, htext, -⟩ := h.exists_valueLine v
  exact htext ▸ l.isLine_text

theorem Legible.isLine_endText (h : f.Legible) (b : Block) : IsLine (f.endText b) := by
  unfold endText
  split
  · next t ht =>
    obtain ⟨l, htext, -⟩ := h.exists_endLine ht
    exact htext ▸ l.isLine_text
  · decide

theorem Legible.isLine_lines (h : f.Legible) : ∀ line ∈ f.lines, IsLine line := by
  intro line hline
  rcases List.mem_append.1 hline with hline | hline
  · obtain ⟨b, -, hline⟩ := List.mem_flatMap.1 hline
    rcases List.mem_cons.1 hline with rfl | hline
    · exact h.isLine_headText b
    · obtain ⟨text, htext, rfl⟩ := List.mem_map.1 hline
      refine isLine_append.2 ⟨by decide, ?_⟩
      rcases List.mem_append.1 htext with htext | htext
      · obtain ⟨v, -, rfl⟩ := List.mem_map.1 htext
        exact h.isLine_valueText v
      · rw [List.mem_singleton.1 htext]
        exact h.isLine_endText b
  · rw [List.mem_singleton.1 hline]
    decide

/-- The head and the lines are known from the text. -/
theorem head_and_lines_eq (hf : f.Legible) (hg : g.Legible) (h : f.text = g.text) :
    f.name = g.name ∧ f.params = g.params ∧ f.result = g.result ∧ f.lines = g.lines := by
  have hbody : ∀ {k : Function}, k.Legible →
      Lacks '\x7b' ("\n" ++ String.join (k.lines.map (· ++ "\n"))) := by
    intro k hk
    refine lacks_append.2 ⟨by decide, lacks_join fun ended hended => ?_⟩
    obtain ⟨line, hline, rfl⟩ := List.mem_map.1 hended
    exact lacks_append.2 ⟨(hk.isLine_lines line hline).2, by decide⟩
  have hparams : ∀ k : Function, Lacks '(' (commas (k.params.map Ty.text)) ∧
      Lacks ')' (commas (k.params.map Ty.text)) ∧ Lacks '(' k.result.text := by
    intro k
    have hty : ∀ mark, isWordPart mark = false → ∀ ty : Ty, Lacks mark ty.text :=
      fun mark hmark ty => ty.isWord_text.lacks hmark
    exact ⟨lacks_commas (by simpa using fun ty _ => hty '(' (by decide) ty) (by decide),
      lacks_commas (by simpa using fun ty _ => hty ')' (by decide) ty) (by decide),
      hty '(' (by decide) _⟩
  have htypes : ∀ k : Function,
      Lacks '(' (commas (k.params.map Ty.text) ++ ") -> " ++ k.result.text) :=
    fun k => lacks_append.2 ⟨lacks_append.2 ⟨(hparams k).1, by decide⟩, (hparams k).2.2⟩
  rw [text_eq, text_eq] at h
  obtain ⟨hhead, hlines⟩ := cut_last " \x7b" (by decide) (hbody hf) (hbody hg) h
  obtain ⟨hname, htypes⟩ := cut_last "(" (by decide) (htypes f) (htypes g) hhead
  obtain ⟨hps, hresult⟩ := cut_first ") -> " (by decide) (hparams f).2.1 (hparams g).2.1 htypes
  refine ⟨(String.append_right_inj _).1 hname, types_injective hps, Ty.text_injective hresult, ?_⟩
  exact lines_injective (fun line hline => (hf.isLine_lines line hline).1)
    (fun line hline => (hg.isLine_lines line hline).1) ((String.append_right_inj _).1 hlines)

/-- The lines of each block are known from all lines. -/
theorem blocks_eq (h : f.lines = g.lines) : f.blocks.size = g.blocks.size ∧
    ∀ b : Block, b.index < f.blocks.size → f.headText b = g.headText b ∧
      f.innerLines b = g.innerLines b := by
  have hgroups : ∀ k : Function, ∀ group ∈ k.blockIds.map fun b => (k.headText b, k.innerLines b),
      isHead group.1 = true ∧ ∀ line ∈ group.2, isHead line = false := by
    intro k group hgroup
    obtain ⟨b, -, rfl⟩ := List.mem_map.1 hgroup
    exact ⟨k.isHead_headText b, k.isHead_innerLines b⟩
  have hflat := List.append_cancel_right h
  have hsame : (f.blockIds.map fun b => (f.headText b, f.innerLines b))
      = g.blockIds.map fun b => (g.headText b, g.innerLines b) := by
    apply groups_injective isHead (hgroups f) (hgroups g)
    rw [List.flatMap_map, List.flatMap_map]
    exact hflat
  have hsize : f.blocks.size = g.blocks.size := by
    have hlength := congrArg List.length hsame
    simpa [blockIds] using hlength
  refine ⟨hsize, fun b hb => ?_⟩
  have hids : g.blockIds = f.blockIds := by
    unfold blockIds
    rw [hsize]
  rw [hids] at hsame
  exact Prod.mk.inj (List.map_inj_left.1 hsame b (mem_blockIds.2 hb))

/-- What can be seen of each item by one view can be seen by the other. -/
theorem map_eq_map_of_view {α β γ δ : Type} {view₁ : α → γ} {view₂ : β → γ} {other₁ : α → δ}
    {other₂ : β → δ} (hview : ∀ a b, view₁ a = view₂ b → other₁ a = other₂ b) {l₁ : List α}
    {l₂ : List β} (h : l₁.map view₁ = l₂.map view₂) : l₁.map other₁ = l₂.map other₂ := by
  induction l₁ generalizing l₂ with
  | nil =>
    rw [List.map_nil, eq_comm, List.map_eq_nil_iff] at h
    rw [h]
    rfl
  | cons a l₁ ih =>
    cases l₂ with
    | nil => cases h
    | cons b l₂ =>
      obtain ⟨hhead, htail⟩ := List.cons.inj h
      rw [List.map_cons, List.map_cons, hview a b hhead, ih htail]

/-- The lines of a block show its phis, its instructions and its end. -/
theorem innerLines_inj (hf : f.Legible) (hg : g.Legible) {b : Block}
    (h : f.innerLines b = g.innerLines b) :
    (f.block b).phis.map f.shown = (g.block b).phis.map g.shown ∧
      (f.block b).insts.toList.map f.shown = (g.block b).insts.toList.map g.shown ∧
      f.endText b = g.endText b := by
  have htexts : ((f.block b).phis ++ (f.block b).insts.toList).map f.valueText ++ [f.endText b]
      = ((g.block b).phis ++ (g.block b).insts.toList).map g.valueText ++ [g.endText b] :=
    List.map_injective_iff.2 (fun x y hxy => (String.append_right_inj _).1 hxy) h
  obtain ⟨hvalues, hend⟩ := List.append_inj' htexts rfl
  have hshown := map_eq_map_of_view (fun v w => hf.shown_eq hg) hvalues
  rw [List.map_append, List.map_append] at hshown
  -- The phis come first, and what comes behind them is no phi.
  have hphis : ∀ {k : Function}, k.Legible → ∀ s ∈ (k.block b).phis.map k.shown, s.2.2.isPhi = true := by
    intro k hk s hs
    obtain ⟨v, hv, rfl⟩ := List.mem_map.1 hs
    exact (hk.phis b v hv).2
  have hinsts : ∀ {k : Function}, k.Legible →
      ∀ s ∈ (k.block b).insts.toList.map k.shown, ¬s.2.2.isPhi = true := by
    intro k hk s hs
    obtain ⟨v, hv, rfl⟩ := List.mem_map.1 hs
    rw [show (k.shown v).2.2.isPhi = false from (hk.insts b v (Array.mem_toList_iff.1 hv)).2]
    decide
  have hfirst := congrArg (List.filter fun s => s.2.2.isPhi) hshown
  rw [List.filter_append, List.filter_append, List.filter_eq_self.2 (hphis hf),
    List.filter_eq_self.2 (hphis hg), List.filter_eq_nil_iff.2 (hinsts hf),
    List.filter_eq_nil_iff.2 (hinsts hg), List.append_nil, List.append_nil] at hfirst
  rw [hfirst] at hshown
  exact ⟨hfirst, List.append_cancel_left hshown, List.singleton_inj.1 hend⟩

/-- The head of a block says its label and its predecessors. -/
theorem headText_inj (hf : f.Legible) (hg : g.Legible) {b : Block}
    (h : f.headText b = g.headText b) :
    (f.block b).label = (g.block b).label ∧ (f.block b).preds = (g.block b).preds := by
  unfold headText at h
  have hlacks : ∀ {k : Function}, k.Legible → Lacks ':' (b.text ++ "." ++ (k.block b).label) :=
    fun hk => lacks_append.2 ⟨lacks_append.2 ⟨b.isWord_text.lacks (by decide), by decide⟩,
      (hk.labels b).lacks (by decide)⟩
  obtain ⟨hlabel, hpreds⟩ := cut_first ":" (by decide) (hlacks hf) (hlacks hg) h
  exact ⟨(String.append_right_inj _).1 hlabel, predsText_injective hpreds⟩

/-- A block in which control ends is the same if it has the same lines. -/
theorem sameBlock_of_lines (hf : f.Legible) (hg : g.Legible) {b : Block}
    (hfend : (f.block b).terminator?.isSome) (hgend : (g.block b).terminator?.isSome)
    (hhead : f.headText b = g.headText b) (hinner : f.innerLines b = g.innerLines b) :
    SameBlock f g b := by
  obtain ⟨hlabel, hpreds⟩ := headText_inj hf hg hhead
  obtain ⟨hphis, hinsts, hend⟩ := innerLines_inj hf hg hinner
  refine ⟨hlabel, hpreds, hphis, hinsts, ?_⟩
  obtain ⟨t, ht⟩ := Option.isSome_iff_exists.1 hfend
  obtain ⟨u, hu⟩ := Option.isSome_iff_exists.1 hgend
  have htext : f.terminatorText t = g.terminatorText u := by
    unfold endText at hend
    rwa [ht, hu] at hend
  rw [ht, hu, Option.map_some, Option.map_some, hf.shownEnd_eq hg ht hu htext]

/-- Legible functions in which every block has an end are the same if they have the same text. -/
theorem sameListing_of_text (hf : f.Legible) (hg : g.Legible)
    (hfends : ∀ b : Block, b.index < f.blocks.size → (f.block b).terminator?.isSome)
    (hgends : ∀ b : Block, b.index < g.blocks.size → (g.block b).terminator?.isSome)
    (h : f.text = g.text) : f.SameListing g := by
  obtain ⟨hname, hparams, hresult, hlines⟩ := head_and_lines_eq hf hg h
  obtain ⟨hsize, hblocks⟩ := blocks_eq hlines
  refine ⟨hname, hparams, hresult, hsize, fun b => ?_⟩
  by_cases hb : b.index < f.blocks.size
  · obtain ⟨hhead, hinner⟩ := hblocks b hb
    exact sameBlock_of_lines hf hg (hfends b hb) (hgends b (hsize ▸ hb)) hhead hinner
  · have hnone : f.block b = default ∧ g.block b = default :=
      ⟨block_of_le (by omega), block_of_le (by omega)⟩
    constructor <;> rw [hnone.1, hnone.2] <;> rfl

end Function

end Abacus.Flow

namespace Abacus

open Lowering (Options Export Emission lowerUnit exists_ok_of_map)

/-- The function comes out of a source text that has been lowered with some options, behind some
exports of other units, and with some name for its top-level statements. -/
inductive Emitted : Flow.Function → Prop
  | intro {source : String} {tree : Tree} {options : Options} {exports : List Export}
      {unitName : String} {emission : Emission} {f : Flow.Function} : parse source = .ok tree →
      lowerUnit options exports unitName (some tree) = .ok emission →
      f ∈ emission.module.functions → Emitted f

/-- The functions of a text compiled on its own are emitted. -/
theorem Emitted.of_compile {options : Options} {source : String} {m : Flow.Module}
    (h : compile options source = .ok m) : ∀ f ∈ m.functions, Emitted f := by
  obtain ⟨tree, hparse, h⟩ := Lowering.except_bind_ok h
  obtain ⟨emission, hlower, h⟩ := Lowering.except_bind_ok h
  cases h
  unfold compileTree at hlower
  split at hlower
  · next hunit =>
    cases hlower
    exact fun f hf => .intro hparse hunit hf
  · cases hlower

/-- The functions of a unit of a session are emitted. -/
theorem Emitted.of_compileUnit {s after : Session} {source : String} {emission : Emission}
    (h : s.compileUnit source = .ok (emission, after)) : ∀ f ∈ emission.module.functions, Emitted f := by
  obtain ⟨tree, hparse, h⟩ := Lowering.except_bind_ok h
  obtain ⟨emission, hlower, h⟩ := Lowering.except_bind_ok h
  cases h
  unfold compileTree at hlower
  split at hlower
  · next hunit =>
    cases hlower
    exact fun f hf => .intro hparse hunit hf
  · cases hlower

theorem Emitted.readable {f : Flow.Function} (h : Emitted f) : Lowering.Readable f := by
  obtain ⟨hparse, hlower, hf⟩ := h
  exact Lowering.lowerUnit_readable (parse_callsOnly hparse) hlower f hf

/-! ## Bytes -/

theorem toList_bytes (bytes : ByteArray) : bytes.toList = bytes.data.toList := by
  have hloop : ∀ (n i : ℕ) (front : List UInt8), bytes.size - i = n →
      ByteArray.toList.loop bytes i front = front.reverse ++ bytes.data.toList.drop i := by
    intro n
    induction n with
    | zero =>
      intro i front hn
      rw [ByteArray.toList.loop, if_neg (by omega), List.drop_eq_nil_of_le, List.append_nil]
      exact Nat.sub_eq_zero_iff_le.1 hn
    | succ n ih =>
      intro i front hn
      have hlt : i < bytes.size := Nat.lt_of_sub_eq_succ hn
      have hlength : i < bytes.data.toList.length := hlt
      have hget : bytes.get! i = bytes.data.toList[i] := getElem!_pos bytes.data i hlt
      rw [ByteArray.toList.loop, if_pos hlt, ih (i + 1) _ (by omega), List.drop_eq_getElem_cons hlength,
        List.reverse_cons, List.append_assoc, hget]
      rfl
  exact hloop _ 0 [] rfl

/-- Different texts have different bytes. -/
theorem utf8Bytes_injective : Function.Injective utf8Bytes := by
  intro s t h
  unfold utf8Bytes at h
  rw [toList_bytes, toList_bytes] at h
  exact String.toByteArray_inj.1 (ByteArray.ext (Array.toList_inj.1 h))

/-- Two sequences of bytes have the same hash. -/
structure Blake3.Collision (x y : List UInt8) : Prop where
  ne : x ≠ y
  eq : Blake3.hash x = Blake3.hash y

/-- Functions of units with the same text are the same, as far as a listing goes. So are functions with
the same hash, unless the bytes of their texts are a collision of the hash function. -/
theorem Emitted.determined {f g : Flow.Function} (hf : Emitted f) (hg : Emitted g) :
    (f.text = g.text → f.SameListing g) ∧
      (f.digest = g.digest →
        f.SameListing g ∨ Blake3.Collision (utf8Bytes f.text) (utf8Bytes g.text)) := by
  have hsame : f.text = g.text → f.SameListing g := fun htext =>
    Flow.Function.sameListing_of_text hf.readable.1 hg.readable.1 hf.readable.2 hg.readable.2 htext
  refine ⟨hsame, fun hdigest => ?_⟩
  by_cases hbytes : utf8Bytes f.text = utf8Bytes g.text
  · exact .inl (hsame (utf8Bytes_injective hbytes))
  · exact .inr ⟨hbytes, hdigest⟩

/-- A function with and without parentheses around what it gives back. -/
theorem determined_parentheses : ∃ f g,
    (∃ m, compile .default "fn f(a)\n    return (a / 2)\n" = .ok m ∧ f ∈ m.functions) ∧
    (∃ m, compile .default "fn f(a) # half\n  return a / 2\n" = .ok m ∧ g ∈ m.functions) ∧
    f.text = g.text ∧ f.SameListing g := by
  let text := "fn @f(i64) -> i64 \x7b\nbb0.entry:\n    %0 = param 0\n    %1 = iconst 2\n" ++
    "    %2 = iconst 0\n    %3 = icmp eq i64 %1, %2\n    br %3, bb1, bb2\n" ++
    "bb1.div.zero:  ; preds = bb0\n    %4 = fault.alloc 1, type 1\n    fault.raise %4\n" ++
    "bb2.div.ok:  ; preds = bb0\n    %5 = div i64 %0, %1\n    ret %5\n" ++
    "bb3.after_return:\n    %6 = iconst 0\n    ret %6\n\x7d\n"
  obtain ⟨m, hm, hmtexts⟩ := exists_ok_of_map (f := fun m => m.functions.map Flow.Function.text)
    (b := [text]) (x := compile .default "fn f(a)\n    return (a / 2)\n") (by decide +kernel)
  obtain ⟨n, hn, hntexts⟩ := exists_ok_of_map (f := fun m => m.functions.map Flow.Function.text)
    (b := [text]) (x := compile .default "fn f(a) # half\n  return a / 2\n") (by decide +kernel)
  obtain ⟨f, hf, hftext⟩ := List.map_eq_singleton_iff.1 hmtexts
  obtain ⟨g, hg, hgtext⟩ := List.map_eq_singleton_iff.1 hntexts
  have hfm : f ∈ m.functions := hf ▸ List.mem_singleton_self f
  have hgn : g ∈ n.functions := hg ▸ List.mem_singleton_self g
  have htexts : f.text = g.text := hftext.trans hgtext.symm
  exact ⟨f, g, ⟨m, hm, hfm⟩, ⟨n, hn, hgn⟩, htexts,
    (Emitted.determined (.of_compile hm f hfm) (.of_compile hn g hgn)).1 htexts⟩

end Abacus
