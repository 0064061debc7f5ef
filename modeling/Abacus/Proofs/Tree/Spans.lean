import Abacus.Proofs.Source.Coverage
import Abacus.Proofs.Source.Parsing

/-!
# Spans of trees

The span of a tree stands in the text and covers the spans of its children, which come one after the
other. Spans of trees are put together from spans of tokens, and the tokens of a text stand behind one
another; only the ends of several blocks stand at the same place.

* `Span.StandsIn` — a span has the line and the column of its first byte, and ends in the text;
* `Tree.Nested` — the spans of a tree and of all that is below it;
* `TokenStream.Orderly` — the tokens stand in the text, one behind the other; `orderly_streamOf` for
  those of a text;
* `TokenStream.Within` — how far the reading has come.
-/

namespace Abacus

open Cursor (byteLength)

/-! ## Spans -/

/-- The span marks a piece of the text, and has the line and the column of its first byte. -/
def Span.StandsIn (text : String) (span : Span) : Prop :=
  ∃ before word rest, text.toList = before ++ (word ++ rest) ∧ span = spanOf before word

namespace Span.StandsIn

variable {text : String} {a b : Span}

theorem start_le (h : a.StandsIn text) : a.start ≤ a.stop := by
  obtain ⟨before, word, rest, -, rfl⟩ := h
  exact Nat.le_add_right _ _

/-- From the first byte of one span to the last byte of one that does not start before it. -/
theorem merge (ha : a.StandsIn text) (hb : b.StandsIn text) (h : a.start ≤ b.start) :
    (a.merge b).StandsIn text := by
  have hmerge : a.merge b = { a with stop := max a.stop b.stop } := by
    rw [Span.merge, if_neg (Nat.not_lt_of_le h), if_neg (Nat.not_lt_of_le h), Nat.min_eq_left h]
  rw [hmerge]
  -- The second span may end inside the first one; then the first one is all.
  by_cases hstop : b.stop ≤ a.stop
  · rwa [Nat.max_eq_left hstop]
  · rw [Nat.max_eq_right (Nat.le_of_not_le hstop)]
    obtain ⟨before, word, rest, htext, rfl⟩ := ha
    obtain ⟨before', word', rest', htext', rfl⟩ := hb
    have hsame : before ++ (word ++ rest) = (before' ++ word') ++ rest' := by
      rw [← htext, htext', List.append_assoc]
    obtain ⟨more, hmore, -⟩ | ⟨more, hmore, -⟩ := List.append_eq_append_iff.1 hsame
    · refine ⟨before, more, rest', ?_, ?_⟩
      · rw [htext', ← List.append_assoc, hmore, List.append_assoc]
      · have hlength := congrArg byteLength hmore
        rw [byteLength_append, byteLength_append] at hlength
        unfold spanOf
        dsimp only
        rw [hlength]
    · -- The second span would end before the first one starts.
      have hlength := congrArg byteLength hmore
      rw [byteLength_append, byteLength_append] at hlength
      unfold spanOf at hstop
      dsimp only at hstop
      omega

end Span.StandsIn

/-- The tree and all that is below it stand in the text, every node at a span that covers those of its
children, and the children one behind the other. -/
inductive Tree.Nested (text : String) : Tree → Prop
  | node {span : Span} {shape : Shape Tree} : span.StandsIn text →
      (∀ t ∈ shape.children, Nested text t) →
      (∀ t ∈ shape.children, span.start ≤ t.span.start ∧ t.span.stop ≤ span.stop) →
      shape.children.Pairwise (fun t t' => t.span.stop ≤ t'.span.start) →
      Nested text (.node span shape)

theorem Tree.Nested.standsIn {text : String} {t : Tree} (h : t.Nested text) : t.span.StandsIn text := by
  cases h
  assumption

/-- Trees that stand one behind the other, from `low` to `high`. -/
structure Siblings (text : String) (low : Nat) (ts : List Tree) (high : Nat) : Prop where
  nested : ∀ t ∈ ts, t.Nested text
  within : ∀ t ∈ ts, low ≤ t.span.start ∧ t.span.stop ≤ high
  ordered : ts.Pairwise fun t t' => t.span.stop ≤ t'.span.start
  le : low ≤ high

namespace Siblings

variable {text : String} {low high high' : Nat} {ts : List Tree} {t : Tree}

theorem nil (h : low ≤ high) : Siblings text low [] high := ⟨nofun, nofun, .nil, h⟩

/-- One more tree behind the others. -/
theorem push (h : Siblings text low ts high) (ht : t.Nested text) (hstart : high ≤ t.span.start)
    (hstop : t.span.stop ≤ high') : Siblings text low (ts ++ [t]) high' where
  nested u hu := by
    obtain hu | hu := List.mem_append.1 hu
    · exact h.nested u hu
    · exact List.mem_singleton.1 hu ▸ ht
  within u hu := by
    have hle := h.le
    have hspan := ht.standsIn.start_le
    obtain hu | hu := List.mem_append.1 hu
    · obtain ⟨hlow, hhigh⟩ := h.within u hu
      exact ⟨hlow, by omega⟩
    · rw [List.mem_singleton.1 hu]
      exact ⟨by omega, hstop⟩
  ordered := by
    refine List.pairwise_append.2 ⟨h.ordered, List.pairwise_singleton _ _, fun u hu v hv => ?_⟩
    rw [List.mem_singleton.1 hv]
    exact (h.within u hu).2.trans hstart
  le := by
    have hle := h.le
    have hspan := ht.standsIn.start_le
    omega

/-- Trees one behind the other are the children of a node around them. -/
theorem node {span : Span} {shape : Shape Tree} (h : Siblings text low shape.children high)
    (hspan : span.StandsIn text) (hlow : span.start ≤ low) (hhigh : high ≤ span.stop) :
    (Tree.node span shape).Nested text :=
  .node hspan h.nested
    (fun t ht => ⟨hlow.trans (h.within t ht).1, (h.within t ht).2.trans hhigh⟩) h.ordered

end Siblings

/-! ## Streams -/

namespace TokenStream

/-- The token read last, the tokens to come, and the end. -/
def all (s : TokenStream) : List Token := s.previous?.toList ++ (s.rest ++ [⟨.eof, s.finish⟩])

/-- The tokens stand in the text, one behind the other. -/
structure Orderly (text : String) (s : TokenStream) : Prop where
  apart : s.all.Pairwise Token.Apart
  standsIn : ∀ t ∈ s.all, t.span.StandsIn text

/-- The token at `start` has been read, and what has been read reaches `high`. -/
def Within (start : Span) (high : Nat) (s : TokenStream) : Prop :=
  ∃ t ∈ s.previous?, start.start ≤ t.span.start ∧ start.stop ≤ t.span.stop ∧ high ≤ t.span.stop

/-- What has been read reaches `high`, and the token at `start` comes next. -/
structure Before (start : Span) (high : Nat) (s : TokenStream) : Prop where
  current : s.current.span = start
  reaches : high = 0 ∨ ∃ t ∈ s.previous?, high ≤ t.span.stop

variable {text : String} {s : TokenStream} {start : Span} {high : Nat}

theorem current_mem (s : TokenStream) : s.current ∈ s.all := by
  unfold all current
  cases s.rest with
  | nil => simp
  | cons t rest => simp

theorem Orderly.current (h : s.Orderly text) : s.current.span.StandsIn text :=
  h.standsIn _ s.current_mem

/-- The next token stands behind the one read last, or is the end of another block. -/
theorem Orderly.previous_apart (h : s.Orderly text) {t : Token} (ht : t ∈ s.previous?) :
    t.Apart s.current := by
  have hapart := h.apart
  rw [all, Option.mem_def.1 ht] at hapart
  refine List.rel_of_pairwise_cons hapart ?_
  unfold TokenStream.current
  cases s.rest with
  | nil => simp
  | cons t rest => simp

/-- No token starts or stops before the one that is read before it. -/
theorem Orderly.previous_le (h : s.Orderly text) {t : Token} (ht : t ∈ s.previous?) :
    t.span.start ≤ s.current.span.start ∧ t.span.stop ≤ s.current.span.stop := by
  have hspan := (h.standsIn t (List.mem_append_left _ (Option.mem_toList.2 ht))).start_le
  have hspan' := h.current.start_le
  obtain hapart | ⟨-, hsame, -⟩ := h.previous_apart ht
  · omega
  · rw [hsame]
    exact ⟨Nat.le_refl _, Nat.le_refl _⟩

theorem Orderly.advance (h : s.Orderly text) : s.advance.Orderly text := by
  unfold TokenStream.advance
  split
  · exact h
  · next t rest hrest =>
    have hall : ∃ front, s.all = front ++ ({ s with previous? := some t, rest := rest } : TokenStream).all :=
      ⟨s.previous?.toList, by simp [all, hrest]⟩
    obtain ⟨front, hall⟩ := hall
    obtain ⟨hapart, hstands⟩ := h
    rw [hall] at hapart hstands
    exact ⟨(List.pairwise_append.1 hapart).2.1, fun u hu => hstands u (List.mem_append_right _ hu)⟩

theorem previous_advance (h : s.rest ≠ []) : s.advance.previous? = some s.current := by
  obtain ⟨t, rest, hcons⟩ := List.exists_cons_of_ne_nil h
  simp [TokenStream.advance, current, hcons]

theorem advance_of_nil (h : s.rest = []) : s.advance = s := by
  unfold TokenStream.advance
  rw [h]

/-! ### How far the reading has come -/

/-- Reading on from a later token is reading on from an earlier one. -/
theorem Within.outer {inner : Span} (h : s.Within inner high) (hstart : start.start ≤ inner.start)
    (hstop : start.stop ≤ inner.stop) : s.Within start high := by
  obtain ⟨t, ht, hstart', hstop', hhigh⟩ := h
  exact ⟨t, ht, hstart.trans hstart', hstop.trans hstop', hhigh⟩

theorem Within.advance (h : s.Within start high) (hs : s.Orderly text) : s.advance.Within start high := by
  by_cases hrest : s.rest = []
  · rwa [advance_of_nil hrest]
  · obtain ⟨t, ht, hstart, hstop, hhigh⟩ := h
    obtain ⟨hle, hle'⟩ := hs.previous_le ht
    exact ⟨s.current, previous_advance hrest, hstart.trans hle, hstop.trans hle', hhigh.trans hle'⟩

theorem Within.before (h : s.Within start high) : s.Before s.current.span high := by
  obtain ⟨t, ht, -, -, hhigh⟩ := h
  exact ⟨rfl, .inr ⟨t, ht, hhigh⟩⟩

/-- The next token is no earlier than one that has been read. -/
theorem Within.current_le (h : s.Within start high) (hs : s.Orderly text) :
    start.start ≤ s.current.span.start ∧ start.stop ≤ s.current.span.stop := by
  obtain ⟨t, ht, hstart, hstop, -⟩ := h
  obtain ⟨hle, hle'⟩ := hs.previous_le ht
  exact ⟨hstart.trans hle, hstop.trans hle'⟩

theorem Before.advance (h : s.Before start high) (hrest : s.rest ≠ []) :
    s.advance.Within start start.stop := by
  rw [← h.current]
  exact ⟨s.current, previous_advance hrest, Nat.le_refl _, Nat.le_refl _, Nat.le_refl _⟩

/-- What has been read ends before the next token, if that does not end a block. -/
theorem Before.high_le (h : s.Before start high) (hs : s.Orderly text)
    (hlexeme : s.current.lexeme ≠ .dedent) : high ≤ start.start := by
  rw [← h.current]
  obtain rfl | ⟨t, ht, hhigh⟩ := h.reaches
  · exact Nat.zero_le _
  · obtain hapart | ⟨hdedent, hsame, -⟩ := hs.previous_apart ht
    · exact hhigh.trans hapart
    · exact absurd (hsame ▸ hdedent) hlexeme

/-- The span from a token that has been read to the token read last. -/
theorem Within.merge (h : s.Within start high) (hs : s.Orderly text) (hstart : start.StandsIn text) :
    (start.merge s.previousSpan).StandsIn text ∧ (start.merge s.previousSpan).start = start.start ∧
      high ≤ (start.merge s.previousSpan).stop ∧ s.Within start (start.merge s.previousSpan).stop := by
  obtain ⟨t, ht, hfirst, hstop, hhigh⟩ := h
  have hprevious : s.previousSpan = t.span := by
    unfold previousSpan
    rw [Option.mem_def.1 ht]
  have hspan := hs.standsIn t (List.mem_append_left _ (Option.mem_toList.2 ht))
  rw [hprevious]
  refine ⟨hstart.merge hspan hfirst, Nat.min_eq_left hfirst, hhigh.trans (Nat.le_max_right _ _), ?_⟩
  exact ⟨t, ht, hfirst, hstop, Nat.max_le.2 ⟨hstop, Nat.le_refl _⟩⟩

end TokenStream

/-! ### The stream of a text -/

/-- The tokens of a text are those of its stream and the end. -/
theorem tokens_eq_streamOf (text : String) :
    (scan text).tokens = (streamOf text).rest ++ [⟨.eof, (streamOf text).finish⟩] := by
  obtain ⟨front, hfront, heof⟩ := readLines_ends [0] (linesOf text)
  rw [← lexemesOf_eq, lexemesOf] at hfront
  obtain ⟨ts, last, htokens, rfl, hlast⟩ := List.map_eq_append_iff.1 hfront
  obtain ⟨t, rfl, ht⟩ := List.map_eq_singleton_iff.1 hlast
  -- The end of the text comes last and once, so the stream stops there and not earlier.
  have hts : ∀ u ∈ ts, decide (u.lexeme ≠ .eof) = true := by
    intro u hu
    exact decide_eq_true fun heq => heof (heq ▸ List.mem_map_of_mem hu)
  have hrest : (streamOf text).rest = ts := by
    rw [streamOf, TokenStream.ofTokens, htokens]
    dsimp only
    rw [List.takeWhile_append_of_pos hts, List.takeWhile_cons_of_neg (by simp [ht]), List.append_nil]
  have hfinish : (streamOf text).finish = t.span := by
    have hnone : ts.find? (·.lexeme = .eof) = none :=
      List.find?_eq_none.2 fun u hu => by simpa using hts u hu
    rw [streamOf, TokenStream.ofTokens, htokens]
    dsimp only
    rw [List.find?_append, hnone, Option.none_or, List.find?_cons_of_pos (by simp [ht])]
    rfl
  rw [htokens, hrest, hfinish, ← ht]

theorem orderly_streamOf (text : String) : (streamOf text).Orderly text := by
  have hall : (streamOf text).all = (scan text).tokens := by
    rw [tokens_eq_streamOf]
    rfl
  have hcovers := scanItems_covers text
  constructor
  · rw [hall]
    exact hcovers.apart
  · intro t ht
    rw [hall] at ht
    obtain ⟨item, hitem, htoken⟩ := List.mem_filterMap.1 ht
    obtain ⟨before, word, rest, heq, hpiece⟩ := hcovers.stands item hitem
    rw [← span_of_token? htoken]
    exact ⟨before, word, rest, heq, hpiece.span⟩

end Abacus
