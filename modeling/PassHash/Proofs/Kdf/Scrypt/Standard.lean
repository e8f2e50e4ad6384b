import Mathlib.Logic.Function.Iterate
import PassHash.Digest.Hmac
import PassHash.Digest.Sha256

/-!
# Scrypt Octet by Octet

The memory-hard key derivation as its definition puts it: every state is a string of octets, the
octets of a block are read as little-endian words whenever it is mixed, and the table is the
sequence of all states. Nothing is kept between two steps in another form or order.

## Contents

- `salsa`: the Salsa20/8 core on 64 octets
- `blockMix`, `roMix`: the mixing of a state, and of a state through a table
- `pbkdf2`, `scrypt`: the derivations of a key
-/

namespace PassHash

namespace Scrypt

namespace Standard

open Word

/-! ## Octets -/

/-- Piece `i` of a string that consists of pieces of equal size. -/
def piece (size i : Nat) (b : Bytes) : Bytes := (b.drop (size * i)).take size

/-- Strings added without carries. -/
def xor (a b : Bytes) : Bytes := List.zipWith (· ^^^ ·) a b

/-- The number that octets stand for, the least significant first. -/
def littleEndian (b : Bytes) : Nat := b.foldr (fun c n => c.toNat + 256 * n) 0

/-! ## Salsa20/8 core -/

/-- The steps of a double round: word `d` changes by the sum of words `a` and `b`, rotated. -/
def steps : List (Fin 16 × Fin 16 × Fin 16 × UInt32) := [
  (4, 0, 12, 7), (8, 4, 0, 9), (12, 8, 4, 13), (0, 12, 8, 18),
  (9, 5, 1, 7), (13, 9, 5, 9), (1, 13, 9, 13), (5, 1, 13, 18),
  (14, 10, 6, 7), (2, 14, 10, 9), (6, 2, 14, 13), (10, 6, 2, 18),
  (3, 15, 11, 7), (7, 3, 15, 9), (11, 7, 3, 13), (15, 11, 7, 18),
  (1, 0, 3, 7), (2, 1, 0, 9), (3, 2, 1, 13), (0, 3, 2, 18),
  (6, 5, 4, 7), (7, 6, 5, 9), (4, 7, 6, 13), (5, 4, 7, 18),
  (11, 10, 9, 7), (8, 11, 10, 9), (9, 8, 11, 13), (10, 9, 8, 18),
  (12, 15, 14, 7), (13, 12, 15, 9), (14, 13, 12, 13), (15, 14, 13, 18)]

/-- The sixteen words after one step. -/
def step (x : Vector UInt32 16) : Fin 16 × Fin 16 × Fin 16 × UInt32 → Vector UInt32 16
  | (d, a, b, n) => put x d (x.get d ^^^ rotl32 (x.get a + x.get b) n)

/-- The sixteen words after a double round. -/
def doubleRound (x : Vector UInt32 16) : Vector UInt32 16 := steps.foldl step x

/-- The words of 64 octets. -/
def words (b : Bytes) : Vector UInt32 16 :=
  Vector.ofFn fun i => UInt32.ofNat (littleEndian (piece 4 i b))

/-- The core: four double rounds, and the input added to the output. -/
def salsa (b : Bytes) : Bytes :=
  (Vector.zipWith (· + ·) (doubleRound^[4] (words b)) (words b)).toList.flatMap bytesLE32

/-! ## Mixing -/

/-- The output for the block before block `i`; ahead of the first one it is the last block. -/
def chain (r : Nat) (b : Bytes) : (i : Nat) → Bytes
  | 0 => piece 64 (2 * r - 1) b
  | i + 1 => salsa (xor (chain r b i) (piece 64 i b))

/-- A state of `2 * r` blocks, mixed: the outputs for the blocks at even places come first. -/
def blockMix (r : Nat) (b : Bytes) : Bytes :=
  ((List.range r).flatMap fun i => chain r b (2 * i + 1)) ++
    (List.range r).flatMap fun i => chain r b (2 * i + 2)

/-- The number in the last block of a state. -/
def integerify (r : Nat) (b : Bytes) : Nat := littleEndian (piece 64 (2 * r - 1) b)

/-- State `i` of the table. -/
def tableState (r : Nat) (b : Bytes) (i : Nat) : Bytes := (blockMix r)^[i] b

/-- A state mixed through a table of `n` states. -/
def roMix (r n : Nat) (b : Bytes) : Bytes :=
  (fun x => blockMix r (xor x (tableState r b (integerify r x % n))))^[n] (tableState r b n)

/-! ## Derivation -/

/-- The pseudorandom function applied `j` times more, to its own output. -/
def repeated (password salt : Bytes) (i j : Nat) : Bytes :=
  (Hmac.tag Sha256.hash password)^[j]
    (Hmac.tag Sha256.hash password (salt ++ bytesBE32 (UInt32.ofNat i)))

/-- A key of `len` octets by PBKDF2 with HMAC-SHA-256. -/
def pbkdf2 (password salt : Bytes) (iterations len : Nat) : Bytes :=
  ((List.range ((len + 31) / 32)).flatMap fun i =>
    (List.range (iterations - 1)).foldl (fun t j => xor t (repeated password salt (i + 1) (j + 1)))
      (repeated password salt (i + 1) 0)).take len

/-- A key of `len` octets by scrypt with a table of `n` states of `2 * r` blocks and `p` lanes. -/
def scrypt (password salt : Bytes) (n r p len : Nat) : Bytes :=
  let b := pbkdf2 password salt 1 (p * 128 * r)
  let mixed := (List.range p).flatMap fun i => roMix r n (piece (128 * r) i b)
  pbkdf2 password mixed 1 len

end Standard

end Scrypt

end PassHash
