import PassHash.Word

/-!
# Salsa20 Core

A permutation of sixteen words with its input added at the end. The memory-hard key derivations mix
their blocks with it.

## Contents

- `Salsa20.Block`: sixteen words, and their bytes
- `Salsa20.core`: the core with a given number of rounds
-/

namespace PassHash

namespace Salsa20

open Word

/-- Sixteen words. -/
abbrev Block := Vector UInt32 16

namespace Block

/-- The words of two blocks added without carries. -/
def xor (a b : Block) : Block := Vector.zipWith (· ^^^ ·) a b

/-- The words of two blocks added. -/
def add (a b : Block) : Block := Vector.zipWith (· + ·) a b

/-- The bytes of a block. -/
def toBytes (b : Block) : Bytes := b.toList.flatMap bytesLE32

/-- The block with the given words, zero where the list ends. -/
def ofWords (ws : List UInt32) : Block :=
  let words := ws.toArray
  Vector.ofFn fun i => words.getD i 0

/-- The block of the first 64 bytes. -/
def ofBytes (b : Bytes) : Block := ofWords (wordsLE32 (b.take 64))

/-- The first `n` blocks of a byte string, after those already read, the latest first. -/
def readList : (n : Nat) → (read : List Block) → Bytes → List Block
  | 0, read, _ => read.reverse
  | n + 1, read, b => readList n (ofBytes b :: read) (b.drop 64)

/-- The first `n` blocks of a byte string. -/
def listOfBytes (n : Nat) (b : Bytes) : List Block := readList n [] b

end Block

/-- The quarter round on four words of a block. -/
@[inline] def quarter (a b c d : Fin 16) (x : Block) : Block :=
  let x := put x b (x.get b ^^^ rotl32 (x.get a + x.get d) 7)
  let x := put x c (x.get c ^^^ rotl32 (x.get b + x.get a) 9)
  let x := put x d (x.get d ^^^ rotl32 (x.get c + x.get b) 13)
  put x a (x.get a ^^^ rotl32 (x.get d + x.get c) 18)

/-- A round over the columns of the four by four matrix of words. -/
def columnRound (x : Block) : Block :=
  quarter 15 3 7 11 (quarter 10 14 2 6 (quarter 5 9 13 1 (quarter 0 4 8 12 x)))

/-- A round over the rows. -/
def rowRound (x : Block) : Block :=
  quarter 15 12 13 14 (quarter 10 11 8 9 (quarter 5 6 7 4 (quarter 0 1 2 3 x)))

/-- The block after `n` double rounds. -/
def rounds (n : Nat) (x : Block) : Block := Nat.fold n (fun _ _ y => rowRound (columnRound y)) x

/-- The core with `n` double rounds. -/
def core (n : Nat) (x : Block) : Block := (rounds n x).add x

end Salsa20

end PassHash
