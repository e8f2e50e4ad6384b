import PassHash.Word

/-!
# Hash Functions

The password schemes need of a hash function only its block size, its digest size and the function
itself. The hash functions of this library (MD4, MD5, SHA-1, SHA-2, SM3) share one frame: the
message gets a 1 bit, zeros and its bit length, and a compression function absorbs one block after
the other.

## Contents

- `HashFunction`: a function from byte strings to digests of a fixed size
- `Digest.padded`: a message filled up to whole blocks
- `Digest.absorb`: a compression function over the blocks of a byte string

## Main statements

- `Digest.dvd_length_padded`: a padded message consists of whole blocks
-/

namespace PassHash

/-- A function from byte strings to digests of a fixed size. -/
structure HashFunction where
  /-- Bytes that the function takes at a time. -/
  blockSize : Nat
  /-- Bytes of a digest. -/
  digestSize : Nat
  digest : Bytes → Bytes
  length_digest : ∀ m, (digest m).length = digestSize

namespace Digest

/-! ## Padding -/

/-- How many zero bytes bring `len` bytes, one marker byte and `tail` more to whole blocks. -/
def zerosFor (block tail len : Nat) : Nat := (block - (len + 1 + tail) % block) % block

/-- The message, the marker bit, zeros and the field that states the length in bits. -/
def padded (block : Nat) (lengthField : Nat → Bytes) (m : Bytes) : Bytes :=
  let field := lengthField (8 * m.length)
  m ++ 0x80 :: (List.replicate (zerosFor block field.length m.length) 0 ++ field)

theorem dvd_length_padded {block : Nat} (h : 0 < block) (lengthField : Nat → Bytes) (m : Bytes) :
    block ∣ (padded block lengthField m).length := by
  let n := m.length + 1 + (lengthField (8 * m.length)).length
  have hn : n % block < block := Nat.mod_lt _ h
  have hl : (padded block lengthField m).length = n + (block - n % block) % block := by
    simp [padded, zerosFor, n]
    omega
  have hs : n + (block - n % block) = block * (n / block + 1) := by
    have := Nat.div_add_mod n block
    rw [Nat.mul_add]
    omega
  rw [hl, Nat.dvd_iff_mod_eq_zero, Nat.add_mod_mod, hs, Nat.mul_mod_right]

/-! ## Absorbing blocks -/

/-- The state after the first `count` blocks of `n` bytes. -/
def absorbBlocks {σ : Type} (n : Nat) (compress : σ → Bytes → σ) : (count : Nat) → σ → Bytes → σ
  | 0, s, _ => s
  | count + 1, s, m => absorbBlocks n compress count (compress s (m.take n)) (m.drop n)

/-- The state after every whole block of `n` bytes. -/
def absorb {σ : Type} (n : Nat) (compress : σ → Bytes → σ) (start : σ) (m : Bytes) : σ :=
  absorbBlocks n compress (m.length / n) start m

end Digest

end PassHash
