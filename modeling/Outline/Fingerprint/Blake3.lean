/-!
# The BLAKE3 hash

The 256-bit hash by which contents are told apart, for inputs of any length. The input is cut
into chunks of 1024 bytes and each chunk into blocks of 64 bytes; the blocks of a chunk are
compressed one after another, and chunks are joined pairwise in a binary tree whose left
branches are complete. This module provides:

* `compress` — the permutation of a block under a chaining value;
* `Pending` — a compression not yet run, since the last one of all is flagged as the root;
* `chunk` and `tree` — the pending compression of a chunk and of a run of chunks, and
* `hash` — the 32 bytes of the root.
-/

namespace Outline.Blake3

/-- Eight words: the value handed from one compression to the next. -/
abbrev Chaining := Vector UInt32 8

/-- Sixteen words: a block, or the state of a compression. -/
abbrev Block := Vector UInt32 16

/-- The words that every hash starts from. -/
def start : Chaining :=
  #v[0x6A09E667, 0xBB67AE85, 0x3C6EF372, 0xA54FF53A, 0x510E527F, 0x9B05688C, 0x1F83D9AB,
    0x5BE0CD19]

/-- Where each word of a block moves between two rounds. -/
def permutation : Vector (Fin 16) 16 :=
  #v[2, 6, 3, 10, 7, 0, 4, 13, 1, 11, 12, 5, 9, 14, 15, 8]

/-- The word turned right by `n` bits. -/
def rotateRight (w n : UInt32) : UInt32 :=
  (w >>> n) ||| (w <<< (32 - n))

/-- Mix two words of the block into four words of the state. -/
def mix (s : Block) (a b c d : Fin 16) (x y : UInt32) : Block :=
  let a₁ := s[a] + s[b] + x
  let d₁ := rotateRight (s[d] ^^^ a₁) 16
  let c₁ := s[c] + d₁
  let b₁ := rotateRight (s[b] ^^^ c₁) 12
  let a₂ := a₁ + b₁ + y
  let d₂ := rotateRight (d₁ ^^^ a₂) 8
  let c₂ := c₁ + d₂
  let b₂ := rotateRight (b₁ ^^^ c₂) 7
  (((s.set a a₂).set b b₂).set c c₂).set d d₂

/-- One round: the columns of the state, then its diagonals. -/
def round (s m : Block) : Block :=
  let s := mix s 0 4 8 12 m[0] m[1]
  let s := mix s 1 5 9 13 m[2] m[3]
  let s := mix s 2 6 10 14 m[4] m[5]
  let s := mix s 3 7 11 15 m[6] m[7]
  let s := mix s 0 5 10 15 m[8] m[9]
  let s := mix s 1 6 11 12 m[10] m[11]
  let s := mix s 2 7 8 13 m[12] m[13]
  mix s 3 4 9 14 m[14] m[15]

/-- The block with its words moved. -/
def permute (m : Block) : Block :=
  permutation.map fun i => m[i]

/-- `n` rounds, the block permuted between them. -/
def rounds : Nat → Block → Block → Block
  | 0, s, _ => s
  | n + 1, s, m => rounds n (round s m) (permute m)

/-- Marks the first block of a chunk. -/
def chunkStart : UInt32 := 1

/-- Marks the last block of a chunk. -/
def chunkEnd : UInt32 := 2

/-- Marks a block that joins two chaining values. -/
def parent : UInt32 := 4

/-- Marks the last compression of all. -/
def root : UInt32 := 8

/-- A compression that has not been run. -/
structure Pending where
  chaining : Chaining
  block : Block
  counter : Nat
  length : Nat
  flags : UInt32

/-- Run a compression: seven rounds, then the halves of the state are folded together. -/
def compress (p : Pending) (flags : UInt32) : Chaining :=
  let cv := p.chaining
  let s : Block := #v[cv[0], cv[1], cv[2], cv[3], cv[4], cv[5], cv[6], cv[7],
    start[0], start[1], start[2], start[3],
    UInt32.ofNat p.counter, UInt32.ofNat (p.counter / Nat.pow 2 32), UInt32.ofNat p.length, flags]
  let s := rounds 7 s p.block
  #v[s[0] ^^^ s[8], s[1] ^^^ s[9], s[2] ^^^ s[10], s[3] ^^^ s[11],
    s[4] ^^^ s[12], s[5] ^^^ s[13], s[6] ^^^ s[14], s[7] ^^^ s[15]]

/-- The value that a compression hands on inside the tree. -/
def Pending.chain (p : Pending) : Chaining :=
  compress p p.flags

/-- The little-endian word of the first four bytes; missing bytes are zero. -/
def wordOf (bs : List UInt8) : UInt32 :=
  (bs.take 4).foldr (fun b w => (w <<< 8) ||| b.toUInt32) 0

/-- The block that holds the given bytes, followed by zeros. -/
def blockOf (bs : List UInt8) : Block :=
  Vector.ofFn fun i : Fin 16 => wordOf (bs.drop (4 * i))

/-- The bytes of a word, least significant first. -/
def bytesOf (w : UInt32) : List UInt8 :=
  [w.toUInt8, (w >>> 8).toUInt8, (w >>> 16).toUInt8, (w >>> 24).toUInt8]

/-- The pending last block of a chunk, behind the blocks before it. -/
def chunkFrom (counter : Nat) (flags : UInt32) (cv : Chaining) (bs : List UInt8) : Pending :=
  if 64 < bs.length then
    let p : Pending := ⟨cv, blockOf (bs.take 64), counter, 64, flags⟩
    chunkFrom counter 0 p.chain (bs.drop 64)
  else ⟨cv, blockOf bs, counter, bs.length, flags ||| chunkEnd⟩
termination_by bs.length
decreasing_by
  rw [List.length_drop]
  omega

/-- The pending last block of the chunk with the given number. -/
def chunk (counter : Nat) (bs : List UInt8) : Pending :=
  chunkFrom counter chunkStart start bs

/-- The length of the left branch: the largest number of whole chunks that is a power of two
and leaves something over. -/
def leftLength (n : Nat) : Nat :=
  1024 * Nat.pow 2 (Nat.log2 ((n - 1) / 1024))

/-- The left branch of a text longer than a chunk leaves something over. -/
theorem leftLength_lt {n : Nat} (h : 1024 < n) : leftLength n < n := by
  have h₁ : (n - 1) / 1024 ≠ 0 := by omega
  have h₂ := Nat.log2_self_le h₁
  rw [leftLength, Nat.pow_eq]
  omega

/-- The left branch is never empty. -/
theorem leftLength_pos (n : Nat) : 0 < leftLength n :=
  Nat.mul_pos (by decide) (Nat.two_pow_pos _)

/-- The pending compression that joins all chunks of a text whose first chunk has the given
number. -/
def tree (counter : Nat) (bs : List UInt8) : Pending :=
  if h : 1024 < bs.length then
    have := leftLength_lt h
    let n := leftLength bs.length
    let l := (tree counter (bs.take n)).chain
    let r := (tree (counter + n / 1024) (bs.drop n)).chain
    ⟨start, (l ++ r).cast rfl, 0, 64, parent⟩
  else chunk counter bs
termination_by bs.length
decreasing_by
  · rw [List.length_take]
    omega
  · have := leftLength_pos bs.length
    rw [List.length_drop]
    omega

/-- The 32 bytes of the hash. -/
def hash (bs : List UInt8) : List UInt8 :=
  let p := tree 0 bs
  (compress p (p.flags ||| root)).toList.flatMap bytesOf

/-- A hash has 32 bytes. -/
theorem length_hash (bs : List UInt8) : (hash bs).length = 32 := by
  have h : ∀ ws : List UInt32, (ws.flatMap bytesOf).length = 4 * ws.length := by
    intro ws
    induction ws with
    | nil => rfl
    | cons w r ih => simp only [List.flatMap_cons, List.length_append, ih, List.length_cons]
                     simp [bytesOf]; omega
  simp [hash, h]

end Outline.Blake3
