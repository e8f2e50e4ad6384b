import PassHash.Digest.Basic

/-!
# MD5

Four 32-bit words absorb sixteen little-endian words at a time in 64 steps.

## Main statements

- `Md5.length_digest`: a digest has sixteen bytes
-/

namespace PassHash

namespace Md5

open Word

/-- The chaining state. -/
structure State where
  a : UInt32
  b : UInt32
  c : UInt32
  d : UInt32

/-- The state before the first block. -/
def State.start : State := ⟨0x67452301, 0xefcdab89, 0x98badcfe, 0x10325476⟩

/-- The fractions of `|sin (i + 1)|` to 32 bits. -/
def sines : Array UInt32 := #[
    0xd76aa478, 0xe8c7b756, 0x242070db, 0xc1bdceee, 0xf57c0faf, 0x4787c62a,
    0xa8304613, 0xfd469501, 0x698098d8, 0x8b44f7af, 0xffff5bb1, 0x895cd7be,
    0x6b901122, 0xfd987193, 0xa679438e, 0x49b40821, 0xf61e2562, 0xc040b340,
    0x265e5a51, 0xe9b6c7aa, 0xd62f105d, 0x02441453, 0xd8a1e681, 0xe7d3fbc8,
    0x21e1cde6, 0xc33707d6, 0xf4d50d87, 0x455a14ed, 0xa9e3e905, 0xfcefa3f8,
    0x676f02d9, 0x8d2a4c8a, 0xfffa3942, 0x8771f681, 0x6d9d6122, 0xfde5380c,
    0xa4beea44, 0x4bdecfa9, 0xf6bb4b60, 0xbebfbc70, 0x289b7ec6, 0xeaa127fa,
    0xd4ef3085, 0x04881d05, 0xd9d4d039, 0xe6db99e5, 0x1fa27cf8, 0xc4ac5665,
    0xf4292244, 0x432aff97, 0xab9423a7, 0xfc93a039, 0x655b59c3, 0x8f0ccc92,
    0xffeff47d, 0x85845dd1, 0x6fa87e4f, 0xfe2ce6e0, 0xa3014314, 0x4e0811a1,
    0xf7537e82, 0xbd3af235, 0x2ad7d2bb, 0xeb86d391]

/-- Rotation amounts: four in turn for each quarter of the steps. -/
def rotations : Array UInt32 := #[7, 12, 17, 22, 5, 9, 14, 20, 4, 11, 16, 23, 6, 10, 15, 21]

/-- The mixing function of step `i`. -/
def mixing (i : Nat) (b c d : UInt32) : UInt32 :=
  match i / 16 with
  | 0 => (b &&& c) ||| (~~~b &&& d)
  | 1 => (d &&& b) ||| (~~~d &&& c)
  | 2 => b ^^^ c ^^^ d
  | _ => c ^^^ (b ||| ~~~d)

/-- The word of the block that step `i` takes. -/
def wordIndex (i : Nat) : Nat :=
  match i / 16 with
  | 0 => i
  | 1 => (5 * i + 1) % 16
  | 2 => (3 * i + 5) % 16
  | _ => 7 * i % 16

/-- Step `i` on one block. -/
def step (block : Array UInt32) (i : Nat) (s : State) : State :=
  let sum := s.a + mixing i s.b s.c s.d + sines.getD i 0 + block.getD (wordIndex i) 0
  ⟨s.d, s.b + rotl32 sum (rotations.getD (4 * (i / 16) + i % 4) 0), s.b, s.c⟩

/-- The state after one block. -/
def compress (s : State) (block : Bytes) : State :=
  let block := (wordsLE32 block).toArray
  let t := Nat.fold 64 (fun i _ t => step block i t) s
  ⟨s.a + t.a, s.b + t.b, s.c + t.c, s.d + t.d⟩

/-- The bytes of a state. -/
def State.bytes (s : State) : Bytes :=
  bytesLE32 s.a ++ bytesLE32 s.b ++ bytesLE32 s.c ++ bytesLE32 s.d

/-- The 64-bit length field. -/
def lengthField (bits : Nat) : Bytes := bytesLE64 (UInt64.ofNat bits)

/-- The digest of a message. -/
def digest (m : Bytes) : Bytes :=
  (Digest.absorb 64 compress .start (Digest.padded 64 lengthField m)).bytes

theorem length_digest (m : Bytes) : (digest m).length = 16 := rfl

end Md5

end PassHash
