import PassHash.Cipher.Des.Tables

/-!
# Permutations by Lookup

A permutation of bits is linear: the image of a word is the union of the images of its slices, and
the image of a slice depends on the value of the slice alone. Here every permutation of DES becomes
one table a slice, indexed by the slice's value; the substitutions, taken in pairs, are tabulated
with the output permutation applied.

## Contents

- `Mask.ofSlice`: where the bits of one slice go
- `initialMasks`, `finalMasks`, `keyMasks`, `roundMasks`: the permutations in two halves
- `substitutionMasks`: four tables over twelve bits each
-/

namespace PassHash

namespace Des

/-! ## Masks -/

/-- A table of masks for every slice of the input. -/
abbrev MaskTable (slices values : Nat) := Vector (Vector UInt32 values) slices

namespace Mask

/-- The word of `size` bits in which only bit `i`, counted from the top, is set. -/
def bit (size i : Nat) : UInt32 := UInt32.ofNat (1 <<< (size - 1 - i))

/-- The image of a slice of `width` bits that starts at bit `start`. Bit `i` of the input goes to
    bit `target i` of the output, of which the `size` bits from `low` on are kept. -/
def ofSlice (target : Nat → Option Nat) (start width low size value : Nat) : UInt32 :=
  Nat.fold width (fun j _ mask =>
    if value.testBit (width - 1 - j) then
      match target (start + j) with
      | some o => if low ≤ o ∧ o < low + size then mask ||| bit size (o - low) else mask
      | none => mask
    else mask) 0

/-- The table for slices of `width` bits, one at every `stride` bits. -/
def table (target : Nat → Option Nat) (slices stride width low size : Nat) :
    MaskTable slices (1 <<< width) :=
  Vector.ofFn fun k => Vector.ofFn fun value =>
    ofSlice target (stride * k) width low size value

/-- The entry of a table for the value of slice `k`. -/
@[inline] def entry {slices values : Nat} (t : MaskTable slices values) (k : Fin slices)
    (value : Nat) : UInt32 :=
  t[k].toArray.getD value 0

/-- The union of the entries for the values of all slices. -/
@[inline] def union {slices values : Nat} (t : MaskTable slices values) (slice : Fin slices → Nat) :
    UInt32 :=
  Fin.foldl slices (fun mask k => mask ||| entry t k (slice k)) 0

end Mask

/-! ## Permutations -/

/-- Where a permutation takes bit `i`: the output position whose entry names it. -/
def target (permutation : List Nat) (i : Nat) : Option Nat :=
  permutation.findIdx? (· == i + 1)

/-- Where the inverse of a permutation takes bit `i`. -/
def inverseTarget (permutation : List Nat) (i : Nat) : Option Nat := permutation[i]?.map (· - 1)

/-- The left and right half of the initial permutation, over the bytes of a block. -/
def initialMasks : MaskTable 8 256 × MaskTable 8 256 :=
  (Mask.table (target initialPermutation) 8 8 8 0 32,
    Mask.table (target initialPermutation) 8 8 8 32 32)

/-- The left and right half of the final permutation, over the bytes of a block. -/
def finalMasks : MaskTable 8 256 × MaskTable 8 256 :=
  (Mask.table (inverseTarget initialPermutation) 8 8 8 0 32,
    Mask.table (inverseTarget initialPermutation) 8 8 8 32 32)

/-- The two halves of the key's 56 bits, over the upper seven bits of each key byte. -/
def keyMasks : MaskTable 8 128 × MaskTable 8 128 :=
  (Mask.table (target keyChoice) 8 8 7 0 28, Mask.table (target keyChoice) 8 8 7 28 28)

/-- The two halves of a round key, over slices of seven bits of the rotated halves. -/
def roundMasks : MaskTable 8 128 × MaskTable 8 128 :=
  (Mask.table (target roundChoice) 8 7 7 0 24, Mask.table (target roundChoice) 8 7 7 24 24)

/-! ## Substitutions -/

/-- The output of substitution `n` for six input bits. -/
def substitute (n value : Nat) : Nat :=
  -- the outer two bits name the row, the inner four the column
  let row := value / 32 * 2 + value % 2
  let column := value / 2 % 16
  (substitutions.getD n #[]).getD (16 * row + column) 0

/-- The output byte of substitutions `2 * n` and `2 * n + 1` for twelve input bits. -/
def substitutePair (n value : Nat) : Nat :=
  16 * substitute (2 * n) (value / 64) + substitute (2 * n + 1) (value % 64)

/-- The image of the output byte of each pair under the output permutation, over twelve bits. -/
def substitutionMasks : MaskTable 4 4096 :=
  Vector.ofFn fun n => Vector.ofFn fun value =>
    Mask.ofSlice (target outputPermutation) (8 * n) 8 0 32 (substitutePair n value)

end Des

end PassHash
