import PassHash.Digest.Basic

/-!
# SM3

Eight 32-bit words absorb sixteen big-endian words at a time, stretched to a schedule of 68 words
that the rounds use twice.

## Main statements

- `Sm3.hash`: SM3 as a hash function with 32-byte digests
-/

namespace PassHash

namespace Sm3

open Word

/-- The chaining state. -/
structure State where
  a : UInt32
  b : UInt32
  c : UInt32
  d : UInt32
  e : UInt32
  f : UInt32
  g : UInt32
  h : UInt32

/-- The state before the first block. -/
def State.start : State :=
  ⟨0x7380166f, 0x4914b2b9, 0x172442d7, 0xda8a0600, 0xa96f30bc, 0x163138aa, 0xe38dee4d, 0xb0fb0e4e⟩

/-- The 68 words of a block's schedule. -/
def schedule (block : Array UInt32) : Array UInt32 :=
  Nat.fold 52 (fun i _ w =>
    let x := w.getD i 0 ^^^ w.getD (i + 7) 0 ^^^ rotl32 (w.getD (i + 13) 0) 15
    let p := x ^^^ rotl32 x 15 ^^^ rotl32 x 23
    w.push (p ^^^ rotl32 (w.getD (i + 3) 0) 7 ^^^ w.getD (i + 10) 0))
    block

/-- The Boolean function of the left half in round `i`. -/
def mixLeft (i : Nat) (a b c : UInt32) : UInt32 :=
  if i < 16 then a ^^^ b ^^^ c else (a &&& b) ||| (a &&& c) ||| (b &&& c)

/-- The Boolean function of the right half in round `i`. -/
def mixRight (i : Nat) (e f g : UInt32) : UInt32 :=
  if i < 16 then e ^^^ f ^^^ g else (e &&& f) ||| (~~~e &&& g)

/-- The constant of round `i`. -/
def constant (i : Nat) : UInt32 := if i < 16 then 0x79cc4519 else 0x7a879d8a

/-- Round `i` with the schedule's word and the one four places later. -/
def step (i : Nat) (w w' : UInt32) (s : State) : State :=
  let a₁₂ := rotl32 s.a 12
  let t := rotl32 (a₁₂ + s.e + rotl32 (constant i) (UInt32.ofNat (i % 32))) 7
  let left := mixLeft i s.a s.b s.c + s.d + (t ^^^ a₁₂) + (w ^^^ w')
  let right := mixRight i s.e s.f s.g + s.h + t + w
  ⟨left, s.a, rotl32 s.b 9, s.c, right ^^^ rotl32 right 9 ^^^ rotl32 right 17, s.e,
    rotl32 s.f 19, s.g⟩

/-- The state after one block. -/
def compress (s : State) (block : Bytes) : State :=
  let w := schedule (wordsBE32 block).toArray
  let t := Nat.fold 64 (fun i _ t => step i (w.getD i 0) (w.getD (i + 4) 0) t) s
  ⟨s.a ^^^ t.a, s.b ^^^ t.b, s.c ^^^ t.c, s.d ^^^ t.d, s.e ^^^ t.e, s.f ^^^ t.f, s.g ^^^ t.g,
    s.h ^^^ t.h⟩

/-- The bytes of a state. -/
def State.bytes (s : State) : Bytes :=
  bytesBE32 s.a ++ bytesBE32 s.b ++ bytesBE32 s.c ++ bytesBE32 s.d ++
    bytesBE32 s.e ++ bytesBE32 s.f ++ bytesBE32 s.g ++ bytesBE32 s.h

/-- The 64-bit length field. -/
def lengthField (bits : Nat) : Bytes := bytesBE64 (UInt64.ofNat bits)

/-- The digest of a message. -/
def digest (m : Bytes) : Bytes :=
  (Digest.absorb 64 compress .start (Digest.padded 64 lengthField m)).bytes

/-- SM3 as a hash function. -/
def hash : HashFunction where
  blockSize := 64
  digestSize := 32
  digest := digest
  length_digest _ := rfl

end Sm3

end PassHash
