import PassHash.Digest.Basic

/-!
# SHA-256

Eight 32-bit words absorb sixteen big-endian words at a time, stretched to a schedule of 64.

## Main statements

- `Sha256.hash`: SHA-256 as a hash function with 32-byte digests
-/

namespace PassHash

namespace Sha256

open Word

/-- The chaining state. -/
structure State where
  a : UInt32
  b : UInt32
  c : UInt32
  d : UInt32
  e : UInt32
  f : UInt32
  g : UInt32
  h : UInt32

/-- The state before the first block: the fractions of the square roots of the first primes. -/
def State.start : State :=
  ⟨0x6a09e667, 0xbb67ae85, 0x3c6ef372, 0xa54ff53a,
    0x510e527f, 0x9b05688c, 0x1f83d9ab, 0x5be0cd19⟩

/-- The constants of the rounds: the fractions of the cube roots of the first primes. -/
def roots : Array UInt32 := #[
    0x428a2f98, 0x71374491, 0xb5c0fbcf, 0xe9b5dba5, 0x3956c25b, 0x59f111f1,
    0x923f82a4, 0xab1c5ed5, 0xd807aa98, 0x12835b01, 0x243185be, 0x550c7dc3,
    0x72be5d74, 0x80deb1fe, 0x9bdc06a7, 0xc19bf174, 0xe49b69c1, 0xefbe4786,
    0x0fc19dc6, 0x240ca1cc, 0x2de92c6f, 0x4a7484aa, 0x5cb0a9dc, 0x76f988da,
    0x983e5152, 0xa831c66d, 0xb00327c8, 0xbf597fc7, 0xc6e00bf3, 0xd5a79147,
    0x06ca6351, 0x14292967, 0x27b70a85, 0x2e1b2138, 0x4d2c6dfc, 0x53380d13,
    0x650a7354, 0x766a0abb, 0x81c2c92e, 0x92722c85, 0xa2bfe8a1, 0xa81a664b,
    0xc24b8b70, 0xc76c51a3, 0xd192e819, 0xd6990624, 0xf40e3585, 0x106aa070,
    0x19a4c116, 0x1e376c08, 0x2748774c, 0x34b0bcb5, 0x391c0cb3, 0x4ed8aa4a,
    0x5b9cca4f, 0x682e6ff3, 0x748f82ee, 0x78a5636f, 0x84c87814, 0x8cc70208,
    0x90befffa, 0xa4506ceb, 0xbef9a3f7, 0xc67178f2]

/-- The 64 words of a block's schedule. -/
def schedule (block : Array UInt32) : Array UInt32 :=
  Nat.fold 48 (fun i _ w =>
    let x := w.getD (i + 1) 0
    let y := w.getD (i + 14) 0
    let low := rotr32 x 7 ^^^ rotr32 x 18 ^^^ (x >>> 3)
    let high := rotr32 y 17 ^^^ rotr32 y 19 ^^^ (y >>> 10)
    w.push (w.getD i 0 + low + w.getD (i + 9) 0 + high))
    block

/-- One round with its constant and the schedule's word added up. -/
def step (kw : UInt32) (s : State) : State :=
  let t₁ := s.h + (rotr32 s.e 6 ^^^ rotr32 s.e 11 ^^^ rotr32 s.e 25) +
    ((s.e &&& s.f) ^^^ (~~~s.e &&& s.g)) + kw
  let t₂ := (rotr32 s.a 2 ^^^ rotr32 s.a 13 ^^^ rotr32 s.a 22) +
    ((s.a &&& s.b) ^^^ (s.a &&& s.c) ^^^ (s.b &&& s.c))
  ⟨t₁ + t₂, s.a, s.b, s.c, s.d + t₁, s.e, s.f, s.g⟩

/-- The state after one block. -/
def compress (s : State) (block : Bytes) : State :=
  let w := schedule (wordsBE32 block).toArray
  let t := Nat.fold 64 (fun i _ t => step (roots.getD i 0 + w.getD i 0) t) s
  ⟨s.a + t.a, s.b + t.b, s.c + t.c, s.d + t.d, s.e + t.e, s.f + t.f, s.g + t.g, s.h + t.h⟩

/-- The bytes of a state. -/
def State.bytes (s : State) : Bytes :=
  bytesBE32 s.a ++ bytesBE32 s.b ++ bytesBE32 s.c ++ bytesBE32 s.d ++
    bytesBE32 s.e ++ bytesBE32 s.f ++ bytesBE32 s.g ++ bytesBE32 s.h

/-- The 64-bit length field. -/
def lengthField (bits : Nat) : Bytes := bytesBE64 (UInt64.ofNat bits)

/-- The digest of a message. -/
def digest (m : Bytes) : Bytes :=
  (Digest.absorb 64 compress .start (Digest.padded 64 lengthField m)).bytes

/-- SHA-256 as a hash function. -/
def hash : HashFunction where
  blockSize := 64
  digestSize := 32
  digest := digest
  length_digest _ := rfl

end Sha256

end PassHash
