/-!
# Places in a source text

A `Span` is a range of byte offsets together with the line and the column of its first byte. Lines
and columns count from 1, columns in bytes. `Span.none` stands for "no place".
-/

namespace Abacus

/-- A range of byte offsets with the line and the column of its first byte. -/
structure Span where
  start : Nat
  stop : Nat
  line : Nat
  column : Nat
  deriving DecidableEq, Repr, Inhabited

namespace Span

/-- The span of what has no place in a source text. -/
def none : Span := ⟨0, 0, 0, 0⟩

/-- The smallest span that covers both. Line and column are those of the one that starts first, and
of the left one when both start together. -/
def merge (a b : Span) : Span where
  start := min a.start b.start
  stop := max a.stop b.stop
  line := if b.start < a.start then b.line else a.line
  column := if b.start < a.start then b.column else a.column

/-- First offset and end of the bytes that the span marks; a span that ends before it starts marks
none. -/
def range (s : Span) : Nat × Nat := (s.start, max s.stop s.start)

/-- The spans merged so far, one entry per span of the list. -/
def runningMerge : List Span → List Span
  | [] => []
  | first :: rest => go first rest
where
  /-- The running merge that starts from `sofar`. -/
  go (sofar : Span) : List Span → List Span
    | [] => [sofar]
    | next :: rest => sofar :: go (sofar.merge next) rest

@[simp] theorem merge_start (a b : Span) : (a.merge b).start = min a.start b.start := rfl

@[simp] theorem merge_stop (a b : Span) : (a.merge b).stop = max a.stop b.stop := rfl

theorem merge_self (a : Span) : a.merge a = a := by
  simp [merge]

end Span

end Abacus
