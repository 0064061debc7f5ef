/-!
# BLAKE3

The unkeyed hash of a sequence of bytes, 32 bytes long. The input is cut into chunks of 1024 bytes
and these into blocks of 64. The chunks are the leaves of a binary tree in which every left subtree
is complete and as large as it can be.

* `compress` — the compression function on sixteen words;
* `Node` — the last compression of a chunk or of a parent, not yet made;
* `treeNode` — the node of a run of chunks;
* `hash` — the digest.
-/

namespace Abacus.Blake3

/-! ## Compression -/

/-- The initial chaining value. -/
def iv : Array UInt32 :=
  #[0x6A09E667, 0xBB67AE85, 0x3C6EF372, 0xA54FF53A, 0x510E527F, 0x9B05688C, 0x1F83D9AB, 0x5BE0CD19]

/-- The order in which a round takes the words of the block of the round before. -/
def permutation : Array Nat := #[2, 6, 3, 10, 7, 0, 4, 13, 1, 11, 12, 5, 9, 14, 15, 8]

/-- A word rotated to the right. -/
def rotateRight (w : UInt32) (count : UInt32) : UInt32 := (w >>> count) ||| (w <<< (32 - count))

/-- A word of an array; past its end there are zeros. -/
def word (ws : Array UInt32) (i : Nat) : UInt32 := ws.getD i 0

/-- Mixes two words into four words of the state. -/
def mix (state : Array UInt32) (a b c d : Nat) (x y : UInt32) : Array UInt32 :=
  let wa := word state a + word state b + x
  let wd := rotateRight (word state d ^^^ wa) 16
  let wc := word state c + wd
  let wb := rotateRight (word state b ^^^ wc) 12
  let wa := wa + wb + y
  let wd := rotateRight (wd ^^^ wa) 8
  let wc := wc + wd
  let wb := rotateRight (wb ^^^ wc) 7
  (((state.setIfInBounds a wa).setIfInBounds b wb).setIfInBounds c wc).setIfInBounds d wd

/-- The columns and then the diagonals of the state, as a four by four square. -/
def quarters : List (Nat × Nat × Nat × Nat) :=
  [(0, 4, 8, 12), (1, 5, 9, 13), (2, 6, 10, 14), (3, 7, 11, 15),
    (0, 5, 10, 15), (1, 6, 11, 12), (2, 7, 8, 13), (3, 4, 9, 14)]

/-- One round: each quarter takes the next two words of the block. -/
def round (state block : Array UInt32) : Array UInt32 :=
  quarters.zipIdx.foldl
    (fun state ((a, b, c, d), i) => mix state a b c d (word block (2 * i)) (word block (2 * i + 1)))
    state

/-- The words of the block in the order of the next round. -/
def permute (block : Array UInt32) : Array UInt32 := permutation.map (word block)

/-- Seven rounds. -/
def rounds : Nat → Array UInt32 → Array UInt32 → Array UInt32
  | 0, state, _ => state
  | count + 1, state, block => rounds count (round state block) (permute block)

/-- The compression of a block under a chaining value. -/
def compress (chaining block : Array UInt32) (counter : Nat) (length flags : UInt32) :
    Array UInt32 :=
  let state := chaining ++ iv.extract 0 4 ++
    #[counter.toUInt32, (counter >>> 32).toUInt32, length, flags]
  let after := rounds 7 state block
  let low := (Array.range 8).map fun i => word after i ^^^ word after (i + 8)
  let high := (Array.range 8).map fun i => word after (i + 8) ^^^ word chaining i
  low ++ high

/-! ## Chunks and parents -/

/-- Marks the first block of a chunk. -/
def chunkStart : UInt32 := 1

/-- Marks the last block of a chunk. -/
def chunkEnd : UInt32 := 2

/-- Marks a parent. -/
def parentFlag : UInt32 := 4

/-- Marks the root. -/
def rootFlag : UInt32 := 8

/-- A compression that is not made yet, since it depends on whether the node is the root. -/
structure Node where
  chaining : Array UInt32
  block : Array UInt32
  counter : Nat
  length : UInt32
  flags : UInt32

/-- The chaining value of a node below the root. -/
def Node.chainingValue (n : Node) : Array UInt32 :=
  (compress n.chaining n.block n.counter n.length n.flags).extract 0 8

/-- The words of the digest, of the root. -/
def Node.rootWords (n : Node) : Array UInt32 :=
  (compress n.chaining n.block n.counter n.length (n.flags ||| rootFlag)).extract 0 8

/-- Cuts a list into pieces of `size` elements; the last piece may be shorter. -/
def pieces {α : Type} (size : Nat) (positive : 0 < size) (l : List α) : List (List α) :=
  match l with
  | [] => []
  | a :: rest => (a :: rest).take size :: pieces size positive ((a :: rest).drop size)
termination_by l.length
decreasing_by
  simp only [List.length_drop, List.length_cons]
  omega

/-- Four bytes as a word, the lowest first. Missing bytes are zero. -/
def wordOfBytes : List UInt8 → UInt32
  | [] => 0
  | b :: rest => b.toUInt32 + 256 * wordOfBytes rest

/-- The words of a block of at most 64 bytes, filled up with zeros. -/
def blockWords (bytes : List UInt8) : Array UInt32 :=
  ((pieces 4 (by decide) (bytes ++ List.replicate (64 - bytes.length) 0)).map wordOfBytes).toArray

/-- Goes through the blocks of a chunk. -/
def chunkBlocks (chaining : Array UInt32) (counter : Nat) (flags : UInt32) :
    List (List UInt8) → Node
  | [] => ⟨chaining, blockWords [], counter, 0, flags ||| chunkEnd⟩
  | [last] =>
    ⟨chaining, blockWords last, counter, last.length.toUInt32, flags ||| chunkEnd⟩
  | first :: rest =>
    let after := (compress chaining (blockWords first) counter 64 flags).extract 0 8
    chunkBlocks after counter 0 rest

/-- The node of a chunk. -/
def chunkNode (bytes : List UInt8) (counter : Nat) : Node :=
  chunkBlocks iv counter chunkStart (pieces 64 (by decide) bytes)

/-- The node above two nodes. -/
def parentNode (left right : Node) : Node :=
  ⟨iv, left.chainingValue ++ right.chainingValue, 0, 64, parentFlag⟩

/-- The number of chunks in the left subtree of `count` chunks: the largest power of two below. -/
def leftCount (count : Nat) : Nat := 1 <<< (count - 1).log2

theorem leftCount_lt {count : Nat} (h : 2 ≤ count) : leftCount count < count := by
  have := Nat.log2_self_le (n := count - 1) (by omega)
  rw [leftCount, Nat.one_shiftLeft]
  omega

theorem leftCount_pos (count : Nat) : 0 < leftCount count := by
  rw [leftCount, Nat.one_shiftLeft]
  exact Nat.two_pow_pos _

/-- The node of a run of chunks, the first of which has the given number. -/
def treeNode (chunks : List (List UInt8)) (counter : Nat) : Node :=
  match _h : chunks with
  | [] => chunkNode [] counter
  | [only] => chunkNode only counter
  | _ :: _ :: _ =>
    let k := leftCount chunks.length
    parentNode (treeNode (chunks.take k) counter) (treeNode (chunks.drop k) (counter + k))
termination_by chunks.length
decreasing_by
  · have h1 := leftCount_lt (show 2 ≤ chunks.length by simp [_h])
    simp only [_h, List.length_take, List.length_cons] at h1 ⊢
    omega
  · have h1 := leftCount_pos chunks.length
    simp only [_h, List.length_drop, List.length_cons] at h1 ⊢
    omega

/-! ## Digests -/

/-- The bytes of a word, the lowest first. -/
def bytesOfWord (w : UInt32) : List UInt8 :=
  [w.toUInt8, (w >>> 8).toUInt8, (w >>> 16).toUInt8, (w >>> 24).toUInt8]

/-- The digest of a sequence of bytes. -/
def hash (bytes : List UInt8) : List UInt8 :=
  (treeNode (pieces 1024 (by decide) bytes) 0).rootWords.toList.flatMap bytesOfWord

/-- Two lower-case hexadecimal digits for each byte. -/
def hex (bytes : List UInt8) : String :=
  String.ofList (bytes.flatMap fun b => [digit (b.toNat / 16), digit (b.toNat % 16)])
where
  /-- A hexadecimal digit. -/
  digit (n : Nat) : Char := Nat.digitChar n

end Abacus.Blake3
