import PassHash.Digest.Basic

/-!
# MD4

Four 32-bit words absorb sixteen little-endian words at a time in three rounds of sixteen steps.

## Main statements

- `Md4.length_digest`: a digest has sixteen bytes
-/

namespace PassHash

namespace Md4

open Word

/-- The chaining state. -/
structure State where
  a : UInt32
  b : UInt32
  c : UInt32
  d : UInt32

/-- The state before the first block. -/
def State.start : State := ⟨0x67452301, 0xefcdab89, 0x98badcfe, 0x10325476⟩

/-- Rotation amounts: four in turn for each round. -/
def rotations : Array UInt32 := #[3, 7, 11, 19, 3, 5, 9, 13, 3, 9, 11, 15]

/-- The words of the block in the order in which the third round takes them. -/
def thirdOrder : Array Nat := #[0, 8, 4, 12, 2, 10, 6, 14, 1, 9, 5, 13, 3, 11, 7, 15]

/-- The mixing function of step `i`, with the constant of its round. -/
def mixing (i : Nat) (b c d : UInt32) : UInt32 :=
  match i / 16 with
  | 0 => (b &&& c) ||| (~~~b &&& d)
  | 1 => ((b &&& c) ||| (b &&& d) ||| (c &&& d)) + 0x5a827999
  | _ => (b ^^^ c ^^^ d) + 0x6ed9eba1

/-- The word of the block that step `i` takes. -/
def wordIndex (i : Nat) : Nat :=
  match i / 16 with
  | 0 => i
  | 1 => i % 4 * 4 + i % 16 / 4
  | _ => thirdOrder.getD (i % 16) 0

/-- Step `i` on one block. -/
def step (block : Array UInt32) (i : Nat) (s : State) : State :=
  let sum := s.a + mixing i s.b s.c s.d + block.getD (wordIndex i) 0
  ⟨s.d, rotl32 sum (rotations.getD (4 * (i / 16) + i % 4) 0), s.b, s.c⟩

/-- The state after one block. -/
def compress (s : State) (block : Bytes) : State :=
  let block := (wordsLE32 block).toArray
  let t := Nat.fold 48 (fun i _ t => step block i t) s
  ⟨s.a + t.a, s.b + t.b, s.c + t.c, s.d + t.d⟩

/-- The bytes of a state. -/
def State.bytes (s : State) : Bytes :=
  bytesLE32 s.a ++ bytesLE32 s.b ++ bytesLE32 s.c ++ bytesLE32 s.d

/-- The 64-bit length field. -/
def lengthField (bits : Nat) : Bytes := bytesLE64 (UInt64.ofNat bits)

/-- The digest of a message. -/
def digest (m : Bytes) : Bytes :=
  (Digest.absorb 64 compress .start (Digest.padded 64 lengthField m)).bytes

theorem length_digest (m : Bytes) : (digest m).length = 16 := rfl

end Md4

end PassHash
