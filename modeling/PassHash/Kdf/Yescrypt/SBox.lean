import PassHash.Kdf.BlockMix

/-!
# S-boxes and Parallel Wide Transformation

In its read-write mode yescrypt mixes a block with multiplications and look-ups in a table of its
lane. The table has three regions of equal size. Two of them are read, the third is written, and
after every block the roles rotate, so what is written is read later.

A block is held in diagonal order: word `i` of it is word `5 * i` of the sixteen, counted around.

## Contents

- `diagonal`, `undiagonal`: the order of the words in a block
- `SBox`: the table, the three regions and the cursor for writing
- `SBox.transform`: the transformation of one block
- `SBox.mix`: the transformation of a state

## Main statements

- `undiagonal_diagonal`: putting a block into diagonal order loses nothing
-/

namespace PassHash

namespace Yescrypt

open Salsa20 BlockMix

/-! ## Order of words -/

/-- The block in diagonal order. -/
def diagonal (b : Block) : Block :=
  Vector.ofFn fun i =>
    have h : 5 * i.val % 16 < 16 := Nat.mod_lt _ (by decide)
    b[5 * i.val % 16]

/-- The block whose diagonal order is given. -/
def undiagonal (b : Block) : Block :=
  Vector.ofFn fun i =>
    have h : 13 * i.val % 16 < 16 := Nat.mod_lt _ (by decide)
    b[13 * i.val % 16]

/-- The Salsa20 core with `n` double rounds on a block in diagonal order. -/
def core (n : Nat) (b : Block) : Block := (diagonal (rounds n (undiagonal b))).add b

theorem undiagonal_diagonal (b : Block) : undiagonal (diagonal b) = b := by
  apply Vector.ext
  intro i hi
  simp only [undiagonal, diagonal, Vector.getElem_ofFn]
  congr 1
  omega

/-! ## Tables -/

/-- The words of a region of the table. -/
def regionWords : Nat := 1024

/-- The words of a table. -/
def tableWords : Nat := 3 * regionWords

/-- The table of a lane. The first two regions are read and the third is written, at the entry that
    the cursor points to; an entry is two words. -/
structure SBox where
  words : Array UInt32
  first : Nat
  second : Nat
  third : Nat
  cursor : Nat

namespace SBox

/-- The table that starts out with the given words. -/
def start (words : Array UInt32) : SBox := ⟨words, 2 * regionWords, regionWords, 0, 0⟩

/-- The word at which the entry starts that a word selects from the region at `offset`. -/
def select (offset : Nat) (word : UInt32) : Nat := offset + (word &&& 0xff0).toNat / 4

/-- The entry that starts at a word, as one number. -/
def entry (words : Array UInt32) (i : Nat) : UInt64 :=
  (words.getD i 0).toUInt64 ||| ((words.getD (i + 1) 0).toUInt64 <<< 32)

/-- The product of a block's two words, an entry added and another one added without carries. -/
def combine (words : Array UInt32) (i j : Nat) (low high : UInt32) : UInt64 :=
  (high.toUInt64 * low.toUInt64 + entry words i) ^^^ entry words j

/-- Four words of a block, combined with two entries of each of the regions that are read. -/
def gather (s : SBox) (lane : Fin 4) (x : Block) : Block :=
  let i := select s.first x[4 * lane.val]
  let j := select s.second x[4 * lane.val + 1]
  let u := combine s.words i j x[4 * lane.val] x[4 * lane.val + 1]
  let v := combine s.words (i + 2) (j + 2) x[4 * lane.val + 2] x[4 * lane.val + 3]
  (((x.set (4 * lane.val) u.toUInt32).set (4 * lane.val + 1) (u >>> 32).toUInt32).set
    (4 * lane.val + 2) v.toUInt32).set (4 * lane.val + 3) (v >>> 32).toUInt32

/-- The word that the cursor points to, `k` words on. -/
def target (s : SBox) (k : Nat) : Nat := s.third + 2 * s.cursor + k

/-- The table with four words of a block written at the cursor. -/
def record (s : SBox) (lane : Fin 4) (x : Block) : SBox :=
  let i := s.target 0
  { s with
    words := (((s.words.setIfInBounds i x[4 * lane.val]).setIfInBounds (i + 1)
      x[4 * lane.val + 1]).setIfInBounds (i + 2) x[4 * lane.val + 2]).setIfInBounds (i + 3)
      x[4 * lane.val + 3]
    cursor := s.cursor + 2 }

/-- One round: the four parts of a block in turn, each recorded in all rounds but the first and the
    last. -/
def round (i : Nat) (s : SBox) (x : Block) : SBox × Block :=
  Fin.foldl 4 (fun (s, x) lane =>
    let x := s.gather lane x
    (if i = 0 ∨ i = 5 then s else s.record lane x, x)) (s, x)

/-- The table with the roles of the regions rotated and the cursor kept within a region. -/
def rotate (s : SBox) : SBox :=
  { s with first := s.third, second := s.first, third := s.second, cursor := s.cursor % 512 }

/-- The transformation of a block in six rounds. -/
def transform (s : SBox) (x : Block) : SBox × Block :=
  let (s, x) := Nat.fold 6 (fun i _ (s, x) => round i s x) (s, x)
  (s.rotate, x)

/-- The transformations of the blocks of a state, each block added to the output before it. -/
def outputs (s : SBox) (c : Chunk) : SBox × Array Block :=
  let (s, _, ys) := c.foldl (fun (s, x, ys) b =>
    let (s, y) := transform s (x.xor b)
    (s, y, ys.push y)) (s, last c, #[])
  (s, ys)

/-- The state after one mixing: every block transformed, and the last one run through two rounds of
    Salsa20. -/
def mix (s : SBox) (c : Chunk) : SBox × Chunk :=
  let (s, ys) := s.outputs c
  (s, (ys.modify (ys.size - 1) (core 1)).toList)

end SBox

end Yescrypt

end PassHash
