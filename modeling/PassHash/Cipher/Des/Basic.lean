import PassHash.Cipher.Des.Masks
import PassHash.Word

/-!
# DES with a Salt

The block cipher of the older password schemes. A salt of 24 bits exchanges bits between the two
halves of the expanded word in every round; with salt zero the cipher is plain DES. Blocks can be
passed through the sixteen rounds many times over, with the initial and the final permutation
applied once only.

## Contents

- `Block`: a block, or a key, in two halves
- `Context`: round keys and salt
- `Context.crypt`: a block, encrypted or decrypted any number of times
- `Context.toBytes`, `Context.ofBytes`: the stored form of a context
-/

namespace PassHash

namespace Des

/-! ## Blocks -/

/-- Sixty-four bits in two halves. -/
structure Block where
  left : UInt32
  right : UInt32
  deriving DecidableEq, Repr

namespace Block

/-- The block whose bytes are all zero. -/
def zero : Block := ⟨0, 0⟩

/-- The block of the first eight bytes. -/
def ofBytes (b : Bytes) : Block :=
  match Word.wordsBE32 b with
  | l :: r :: _ => ⟨l, r⟩
  | _ => zero

/-- The eight bytes of a block. -/
def toBytes (b : Block) : Bytes := Word.bytesBE32 b.left ++ Word.bytesBE32 b.right

/-- Byte `k` of a block, counted from the most significant. -/
def byte (b : Block) (k : Fin 8) : Nat :=
  if k.val < 4 then ((b.left >>> UInt32.ofNat (24 - 8 * k.val)) &&& 0xff).toNat
  else ((b.right >>> UInt32.ofNat (56 - 8 * k.val)) &&& 0xff).toNat

/-- The block under a permutation given by its two halves. -/
def permute (masks : MaskTable 8 256 × MaskTable 8 256) (b : Block) : Block :=
  ⟨Mask.union masks.1 b.byte, Mask.union masks.2 b.byte⟩

/-- The block with its halves exchanged. -/
def swap (b : Block) : Block := ⟨b.right, b.left⟩

@[simp] theorem length_toBytes (b : Block) : b.toBytes.length = 8 := rfl

end Block

/-! ## Keys and salt -/

/-- The round keys in two halves of 24 bits, and the bits that the salt exchanges. -/
structure Context where
  left : Vector UInt32 16
  right : Vector UInt32 16
  saltBits : UInt32
  deriving DecidableEq

/-- A half of the key, rotated to the left. The bits above the lowest 28 are not cleared. -/
def rotate28 (x : UInt32) (n : Nat) : UInt32 :=
  (x <<< UInt32.ofNat n) ||| (x >>> UInt32.ofNat (28 - n))

/-- Slice `k` of seven bits of two halves of 28 bits, counted from the top. -/
def slice28 (c d : UInt32) (k : Fin 8) : Nat :=
  if k.val < 4 then ((c >>> UInt32.ofNat (21 - 7 * k.val)) &&& 0x7f).toNat
  else ((d >>> UInt32.ofNat (49 - 7 * k.val)) &&& 0x7f).toNat

/-- The two halves of the key bits that a key selects. -/
def keyHalves (key : Block) : UInt32 × UInt32 :=
  (Mask.union keyMasks.1 fun k => key.byte k / 2, Mask.union keyMasks.2 fun k => key.byte k / 2)

/-- One half of the key of a round. -/
def roundKey (masks : MaskTable 8 128) (halves : UInt32 × UInt32) (round : Nat) : UInt32 :=
  let n := keyRotations.getD round 0
  Mask.union masks (slice28 (rotate28 halves.1 n) (rotate28 halves.2 n))

/-- The exchange mask of a salt: bit `i` of the salt is bit `23 - i` of the mask. -/
def saltMask (salt : UInt32) : UInt32 :=
  Nat.fold 24 (fun i _ mask =>
    if (salt >>> UInt32.ofNat i) &&& 1 = 1 then mask ||| UInt32.ofNat (1 <<< (23 - i)) else mask) 0

namespace Context

/-- Round keys and salt all zero. -/
def zero : Context := ⟨Vector.replicate 16 0, Vector.replicate 16 0, 0⟩

/-- The context with the round keys of a key; the lowest bit of a key byte does not count. -/
def withKey (ctx : Context) (key : Block) : Context :=
  let halves := keyHalves key
  { ctx with
    left := Vector.ofFn fun i => roundKey roundMasks.1 halves i
    right := Vector.ofFn fun i => roundKey roundMasks.2 halves i }

/-- The context with a salt of 24 bits. -/
def withSalt (ctx : Context) (salt : UInt32) : Context := { ctx with saltBits := saltMask salt }

/-- The context of a key and a salt. -/
def ofKey (key : Block) (salt : UInt32) : Context := (zero.withSalt salt).withKey key

end Context

/-! ## Rounds -/

/-- The upper 24 bits of the expansion of 32 bits to 48. -/
def expandLeft (r : UInt32) : UInt32 :=
  ((r &&& 0x00000001) <<< 23) ||| ((r &&& 0xf8000000) >>> 9) ||| ((r &&& 0x1f800000) >>> 11) |||
    ((r &&& 0x01f80000) >>> 13) ||| ((r &&& 0x001f8000) >>> 15)

/-- The lower 24 bits of the expansion of 32 bits to 48. -/
def expandRight (r : UInt32) : UInt32 :=
  ((r &&& 0x0001f800) <<< 7) ||| ((r &&& 0x00001f80) <<< 5) ||| ((r &&& 0x000001f8) <<< 3) |||
    ((r &&& 0x0000001f) <<< 1) ||| ((r &&& 0x80000000) >>> 31)

/-- Encryption applies the round keys in order, decryption from the last to the first. -/
inductive Direction
  | encrypt
  | decrypt
  deriving DecidableEq, Repr

/-- The round key that the `i`-th round applies. -/
def Direction.key : Direction → Fin 16 → Fin 16
  | encrypt, i => i
  | decrypt, i => i.rev

namespace Context

/-- The two halves of the expanded word after the exchange of bits and the addition of a round
    key. -/
def keyed (ctx : Context) (i : Fin 16) (r : UInt32) : UInt32 × UInt32 :=
  let l := expandLeft r
  let r := expandRight r
  -- where the salt has a bit, the halves exchange theirs
  let f := (l ^^^ r) &&& ctx.saltBits
  (l ^^^ (f ^^^ ctx.left.get i), r ^^^ (f ^^^ ctx.right.get i))

/-- The four indices of twelve bits that a round looks up. -/
def indices (ctx : Context) (i : Fin 16) (r : UInt32) : Fin 4 → Nat :=
  let (l, r) := ctx.keyed i r
  fun k =>
    match k with
    | 0 => (l >>> 12).toNat
    | 1 => (l &&& 0xfff).toNat
    | 2 => (r >>> 12).toNat
    | 3 => (r &&& 0xfff).toNat

/-- The round function under round key `i`. -/
def roundFunction (ctx : Context) (i : Fin 16) (r : UInt32) : UInt32 :=
  Mask.union substitutionMasks (ctx.indices i r)

/-- One round. -/
def round (ctx : Context) (i : Fin 16) (b : Block) : Block :=
  ⟨b.right, ctx.roundFunction i b.right ^^^ b.left⟩

/-- The sixteen rounds and the exchange of halves that follows them. -/
def pass (ctx : Context) (direction : Direction) (b : Block) : Block :=
  (Fin.foldl 16 (fun b i => ctx.round (direction.key i) b) b).swap

/-- A number of passes. -/
def passes (ctx : Context) (direction : Direction) : Nat → Block → Block
  | 0, b => b
  | n + 1, b => ctx.passes direction n (ctx.pass direction b)

/-- A block, encrypted or decrypted `count` times in a row; a count of zero is taken for one. -/
def crypt (ctx : Context) (direction : Direction) (count : Nat) (b : Block) : Block :=
  (ctx.passes direction (max count 1) (b.permute initialMasks)).permute finalMasks

/-! ## Stored form -/

/-- How many bytes a stored context takes. -/
def storedSize : Nat := 132

/-- The round keys and the salt mask as little-endian words. -/
def toBytes (ctx : Context) : Bytes :=
  (ctx.left.toList ++ ctx.right.toList ++ [ctx.saltBits]).flatMap Word.bytesLE32

/-- The context that is stored at the start of a byte string; missing words are zero. -/
def ofBytes (b : Bytes) : Context :=
  let words := (Word.wordsLE32 b).toArray
  { left := Vector.ofFn fun i => words.getD i 0
    right := Vector.ofFn fun i => words.getD (16 + i) 0
    saltBits := words.getD 32 0 }

theorem length_toBytes (ctx : Context) : ctx.toBytes.length = storedSize := by
  simp [toBytes, storedSize, List.length_flatMap, List.map_const']

end Context

end Des

end PassHash
