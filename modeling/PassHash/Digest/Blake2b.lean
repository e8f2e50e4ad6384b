import PassHash.Word

/-!
# BLAKE2b

The unkeyed hash function with digests of up to 64 bytes, on which Argon2 is built.

## Contents

- `Blake2b.compress`: one block into the state
- `Blake2b.digest`: a digest of a chosen size

## Main statements

- `Blake2b.length_digest`: a digest has the chosen size, up to 64
-/

namespace PassHash

namespace Blake2b

open Word

/-- The initial words, those of SHA-512. -/
def initial : Vector UInt64 8 := #v[
  0x6a09e667f3bcc908, 0xbb67ae8584caa73b, 0x3c6ef372fe94f82b, 0xa54ff53a5f1d36f1,
  0x510e527fade682d1, 0x9b05688c2b3e6c1f, 0x1f83d9abfb41bd6b, 0x5be0cd19137e2179]

/-- The order in which a round takes the words of a block; it recurs after ten rounds. -/
def orders : Array (Array Nat) := #[
  #[0, 1, 2, 3, 4, 5, 6, 7, 8, 9, 10, 11, 12, 13, 14, 15],
  #[14, 10, 4, 8, 9, 15, 13, 6, 1, 12, 0, 2, 11, 7, 5, 3],
  #[11, 8, 12, 0, 5, 2, 15, 13, 10, 14, 3, 6, 7, 1, 9, 4],
  #[7, 9, 3, 1, 13, 12, 11, 14, 2, 6, 5, 10, 4, 0, 15, 8],
  #[9, 0, 5, 7, 2, 4, 10, 15, 14, 1, 11, 12, 6, 8, 3, 13],
  #[2, 12, 6, 10, 0, 11, 8, 3, 4, 13, 7, 5, 15, 14, 1, 9],
  #[12, 5, 1, 15, 14, 13, 4, 10, 0, 7, 6, 3, 9, 2, 8, 11],
  #[13, 11, 7, 14, 12, 1, 3, 9, 5, 0, 15, 4, 8, 6, 2, 10],
  #[6, 15, 14, 9, 11, 3, 0, 8, 12, 2, 13, 7, 1, 4, 10, 5],
  #[10, 2, 8, 4, 7, 6, 1, 5, 15, 11, 9, 14, 3, 12, 13, 0]]

/-- Sixteen working words. -/
abbrev Work := Vector UInt64 16

/-- The mixing of four working words with two words of the block. -/
def mix (a b c d : Fin 16) (x y : UInt64) (v : Work) : Work :=
  let v := put v a (v.get a + v.get b + x)
  let v := put v d (rotr64 (v.get d ^^^ v.get a) 32)
  let v := put v c (v.get c + v.get d)
  let v := put v b (rotr64 (v.get b ^^^ v.get c) 24)
  let v := put v a (v.get a + v.get b + y)
  let v := put v d (rotr64 (v.get d ^^^ v.get a) 16)
  let v := put v c (v.get c + v.get d)
  put v b (rotr64 (v.get b ^^^ v.get c) 63)

/-- One round with the words of a block in the given order. -/
def round (block : Array UInt64) (order : Array Nat) (v : Work) : Work :=
  let m (i : Nat) : UInt64 := block.getD (order.getD i 0) 0
  let v := mix 0 4 8 12 (m 0) (m 1) v
  let v := mix 1 5 9 13 (m 2) (m 3) v
  let v := mix 2 6 10 14 (m 4) (m 5) v
  let v := mix 3 7 11 15 (m 6) (m 7) v
  let v := mix 0 5 10 15 (m 8) (m 9) v
  let v := mix 1 6 11 12 (m 10) (m 11) v
  let v := mix 2 7 8 13 (m 12) (m 13) v
  mix 3 4 9 14 (m 14) (m 15) v

/-- The state after a block that ends at byte `count` of the message; the last block is marked. -/
def compress (h : Vector UInt64 8) (block : Bytes) (count : Nat) (isLast : Bool) :
    Vector UInt64 8 :=
  let words := (wordsLE64 block).toArray
  let v : Work := h ++ initial
  let v := v.set 12 (v[12] ^^^ UInt64.ofNat count)
  let v := v.set 13 (v[13] ^^^ UInt64.ofNat (count >>> 64))
  let v := if isLast then v.set 14 (~~~v[14]) else v
  let v := Nat.fold 12 (fun i _ v => round words (orders.getD (i % 10) #[]) v) v
  Vector.ofFn fun i : Fin 8 => h[i] ^^^ v[i.val] ^^^ v[i.val + 8]

/-- The state after `n` whole blocks, of which `done` were absorbed before, and a last one. -/
def absorb : (n : Nat) → (done : Nat) → Vector UInt64 8 → Bytes → Vector UInt64 8
  | 0, done, h, m =>
    compress h (m ++ List.replicate (128 - m.length) 0) (128 * done + m.length) true
  | n + 1, done, h, m =>
    absorb n (done + 1) (compress h (m.take 128) (128 * (done + 1)) false) (m.drop 128)

/-- The digest of `size` bytes. -/
def digest (size : Nat) (m : Bytes) : Bytes :=
  let start := initial.set 0 (initial[0] ^^^ 0x01010000 ^^^ UInt64.ofNat size)
  ((absorb ((m.length - 1) / 128) 0 start m).toList.flatMap bytesLE64).take size

theorem length_digest {size : Nat} (h : size ≤ 64) (m : Bytes) :
    (digest size m).length = size := by
  simp [digest, List.length_flatMap, List.map_const']
  omega

end Blake2b

end PassHash
