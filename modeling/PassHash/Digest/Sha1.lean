import PassHash.Digest.Basic

/-!
# SHA-1

Five 32-bit words absorb sixteen big-endian words at a time, stretched to a schedule of eighty.

## Main statements

- `Sha1.hash`: SHA-1 as a hash function with 20-byte digests
-/

namespace PassHash

namespace Sha1

open Word

/-- The chaining state. -/
structure State where
  a : UInt32
  b : UInt32
  c : UInt32
  d : UInt32
  e : UInt32

/-- The state before the first block. -/
def State.start : State := ⟨0x67452301, 0xefcdab89, 0x98badcfe, 0x10325476, 0xc3d2e1f0⟩

/-- The eighty words of a block's schedule. -/
def schedule (block : Array UInt32) : Array UInt32 :=
  Nat.fold 64 (fun i _ w =>
    w.push (rotl32 (w.getD (i + 13) 0 ^^^ w.getD (i + 8) 0 ^^^ w.getD (i + 2) 0 ^^^ w.getD i 0) 1))
    block

/-- The mixing function of step `i`, with the constant of its quarter. -/
def mixing (i : Nat) (b c d : UInt32) : UInt32 :=
  match i / 20 with
  | 0 => ((b &&& c) ||| (~~~b &&& d)) + 0x5a827999
  | 1 => (b ^^^ c ^^^ d) + 0x6ed9eba1
  | 2 => ((b &&& c) ||| (b &&& d) ||| (c &&& d)) + 0x8f1bbcdc
  | _ => (b ^^^ c ^^^ d) + 0xca62c1d6

/-- Step `i` with the schedule's word. -/
def step (i : Nat) (w : UInt32) (s : State) : State :=
  ⟨rotl32 s.a 5 + mixing i s.b s.c s.d + s.e + w, s.a, rotl32 s.b 30, s.c, s.d⟩

/-- The state after one block. -/
def compress (s : State) (block : Bytes) : State :=
  let w := schedule (wordsBE32 block).toArray
  let t := Nat.fold 80 (fun i _ t => step i (w.getD i 0) t) s
  ⟨s.a + t.a, s.b + t.b, s.c + t.c, s.d + t.d, s.e + t.e⟩

/-- The bytes of a state. -/
def State.bytes (s : State) : Bytes :=
  bytesBE32 s.a ++ bytesBE32 s.b ++ bytesBE32 s.c ++ bytesBE32 s.d ++ bytesBE32 s.e

/-- The 64-bit length field. -/
def lengthField (bits : Nat) : Bytes := bytesBE64 (UInt64.ofNat bits)

/-- The digest of a message. -/
def digest (m : Bytes) : Bytes :=
  (Digest.absorb 64 compress .start (Digest.padded 64 lengthField m)).bytes

/-- SHA-1 as a hash function. -/
def hash : HashFunction where
  blockSize := 64
  digestSize := 20
  digest := digest
  length_digest _ := rfl

end Sha1

end PassHash
