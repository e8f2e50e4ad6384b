import PassHash.Bytes

/-!
# Words

Fixed-width words: rotations, words as bytes in both orders, and words at an index.

## Main statements

- `Word.length_bytesBE32` and its companions: a word has four or eight bytes
-/

namespace PassHash

namespace Word

/-! ## Rotations -/

/-- Rotation to the left by less than 32 bits. -/
@[inline] def rotl32 (x n : UInt32) : UInt32 := (x <<< n) ||| (x >>> (32 - n))

/-- Rotation to the right by less than 32 bits. -/
@[inline] def rotr32 (x n : UInt32) : UInt32 := (x >>> n) ||| (x <<< (32 - n))

/-- Rotation to the right by less than 64 bits. -/
@[inline] def rotr64 (x n : UInt64) : UInt64 := (x >>> n) ||| (x <<< (64 - n))

/-! ## Words at an index -/

theorem sixteen_ne_zero : 16 ≠ 0 := by decide

/-- Numerals are indices of sixteen words. -/
instance neZeroSixteen : @NeZero Nat Zero.ofOfNat0 16 := ⟨sixteen_ne_zero⟩

/-- The words with another one at an index. -/
@[inline] def put {α : Type} {n : Nat} (v : Vector α n) (i : Fin n) (x : α) : Vector α n :=
  v.set i.val x i.isLt

/-! ## Words as bytes -/

/-- The four bytes of a word, the most significant first. -/
def bytesBE32 (x : UInt32) : Bytes :=
  [(x >>> 24).toUInt8, (x >>> 16).toUInt8, (x >>> 8).toUInt8, x.toUInt8]

/-- The four bytes of a word, the least significant first. -/
def bytesLE32 (x : UInt32) : Bytes :=
  [x.toUInt8, (x >>> 8).toUInt8, (x >>> 16).toUInt8, (x >>> 24).toUInt8]

/-- The eight bytes of a word, the most significant first. -/
def bytesBE64 (x : UInt64) : Bytes :=
  [(x >>> 56).toUInt8, (x >>> 48).toUInt8, (x >>> 40).toUInt8, (x >>> 32).toUInt8,
    (x >>> 24).toUInt8, (x >>> 16).toUInt8, (x >>> 8).toUInt8, x.toUInt8]

/-- The eight bytes of a word, the least significant first. -/
def bytesLE64 (x : UInt64) : Bytes :=
  [x.toUInt8, (x >>> 8).toUInt8, (x >>> 16).toUInt8, (x >>> 24).toUInt8,
    (x >>> 32).toUInt8, (x >>> 40).toUInt8, (x >>> 48).toUInt8, (x >>> 56).toUInt8]

@[simp] theorem length_bytesBE32 (x : UInt32) : (bytesBE32 x).length = 4 := rfl

@[simp] theorem length_bytesLE32 (x : UInt32) : (bytesLE32 x).length = 4 := rfl

@[simp] theorem length_bytesBE64 (x : UInt64) : (bytesBE64 x).length = 8 := rfl

@[simp] theorem length_bytesLE64 (x : UInt64) : (bytesLE64 x).length = 8 := rfl

/-! ## Bytes as words -/

/-- The word with the given bytes, the most significant first. -/
def ofBytes32 (a b c d : UInt8) : UInt32 :=
  (a.toUInt32 <<< 24) ||| (b.toUInt32 <<< 16) ||| (c.toUInt32 <<< 8) ||| d.toUInt32

/-- The word with the given bytes, the most significant first. -/
def ofBytes64 (a b c d e f g h : UInt8) : UInt64 :=
  ((ofBytes32 a b c d).toUInt64 <<< 32) ||| (ofBytes32 e f g h).toUInt64

/-- The words of a byte string in which the most significant byte of a word comes first. -/
def wordsBE32 : Bytes → List UInt32
  | a :: b :: c :: d :: rest => ofBytes32 a b c d :: wordsBE32 rest
  | _ => []

/-- The words of a byte string in which the least significant byte of a word comes first. -/
def wordsLE32 : Bytes → List UInt32
  | a :: b :: c :: d :: rest => ofBytes32 d c b a :: wordsLE32 rest
  | _ => []

/-- The words of a byte string in which the most significant byte of a word comes first. -/
def wordsBE64 : Bytes → List UInt64
  | a :: b :: c :: d :: e :: f :: g :: h :: rest => ofBytes64 a b c d e f g h :: wordsBE64 rest
  | _ => []

/-- The words of a byte string in which the least significant byte of a word comes first. -/
def wordsLE64 : Bytes → List UInt64
  | a :: b :: c :: d :: e :: f :: g :: h :: rest => ofBytes64 h g f e d c b a :: wordsLE64 rest
  | _ => []

end Word

end PassHash
