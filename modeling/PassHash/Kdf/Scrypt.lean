import PassHash.Digest.Hmac
import PassHash.Digest.Sha256
import PassHash.Kdf.BlockMix

/-!
# Scrypt

The memory-hard key derivation: PBKDF2 makes one state a lane, each lane is mixed
through a table of `N` states and back, and PBKDF2 draws the key from the result.

## Contents

- `Scrypt.roMix`: one lane through its table
- `Scrypt.derive`: the derived key
-/

namespace PassHash

namespace Scrypt

open Salsa20 BlockMix

/-- Cost parameters: states in the table, pairs of blocks in a state, and lanes. -/
structure Cost where
  n : Nat
  r : Nat
  p : Nat
  deriving DecidableEq, Repr

/-- Block mixing with eight rounds of Salsa20. -/
def blockMix (x : Chunk) : Chunk := mix (core 4) x

/-- The number in the first two words of the last block. -/
def integerify (x : Chunk) : Nat :=
  let b := last x
  (b.get 0).toNat + ((b.get 1).toNat <<< 32)

/-- The table of `n` successive states, and the state after them. -/
def fill (n : Nat) (x : Chunk) : Array Chunk × Chunk :=
  Nat.fold n (fun _ _ (table, x) => (table.push x, blockMix x)) (#[], x)

/-- The state after `n` reads of a table at places that the state itself decides. -/
def lookUp (n : Nat) (table : Array Chunk) (x : Chunk) : Chunk :=
  Nat.fold n (fun _ _ x => blockMix (xor x (table.getD (integerify x % n) []))) x

/-- One lane, mixed through its table. -/
def roMix (n : Nat) (x : Chunk) : Chunk :=
  let (table, x) := fill n x
  lookUp n table x

/-- The lanes of a byte string, each of `2 * r` blocks. -/
def lanes (r : Nat) : (p : Nat) → Bytes → List Chunk
  | 0, _ => []
  | p + 1, b => Block.listOfBytes (2 * r) b :: lanes r p (b.drop (128 * r))

/-- A key of `len` bytes. -/
def derive (password salt : Bytes) (cost : Cost) (len : Nat) : Bytes :=
  let start := Pbkdf2.derive Sha256.hash password salt (128 * cost.r * cost.p)
  let mixed := (lanes cost.r cost.p start).flatMap fun lane =>
    (roMix cost.n lane).flatMap Block.toBytes
  Pbkdf2.derive Sha256.hash password mixed len

theorem length_derive (password salt : Bytes) (cost : Cost) (len : Nat) :
    (derive password salt cost len).length = len :=
  Pbkdf2.length_derive _ (by decide) ..

end Scrypt

end PassHash
