import PassHash.Kdf.Salsa20
import PassHash.Proofs.Bytes.Pieces
import PassHash.Proofs.Kdf.Scrypt.Standard
import PassHash.Proofs.Word

/-!
# Blocks as Octets

What the operations on blocks of sixteen words do to the octets of these blocks.

## Main statements

- `Salsa20.Block.toBytes_ofBytes`: a block has the octets that it was read from
- `Scrypt.Standard.salsa_toBytes`, `Scrypt.Standard.xor_toBytes`: the core, and addition
- `Scrypt.Standard.littleEndian_words`: the number that the words of a block stand for
-/

namespace PassHash

/-! ## Blocks and their octets -/

namespace Salsa20

namespace Block

theorem length_toBytes (b : Block) : b.toBytes.length = 64 := by
  rw [toBytes, Pieces.length_flatMap Word.length_bytesLE32, Vector.length_toList]

theorem toList_ofWords {ws : List UInt32} (h : ws.length = 16) : (ofWords ws).toList = ws := by
  apply List.ext_getElem
  · rw [Vector.length_toList, h]
  · intro i hi hi'
    simp [ofWords, hi']

/-- A block has the octets that it was read from. -/
theorem toBytes_ofBytes {b : Bytes} (h : 64 ≤ b.length) : (ofBytes b).toBytes = b.take 64 := by
  have hlength : (b.take 64).length = 64 := List.length_take_of_le h
  have hbytes := Word.flatMap_wordsLE32 (b := b.take 64) ⟨16, hlength⟩
  have hwords : (Word.wordsLE32 (b.take 64)).length = 16 := by
    have hsize := Pieces.length_flatMap Word.length_bytesLE32 (Word.wordsLE32 (b.take 64))
    rw [hbytes, hlength] at hsize
    omega
  rw [toBytes, ofBytes, toList_ofWords hwords, hbytes]

end Block

end Salsa20

namespace Scrypt

namespace Standard

open Salsa20 Word

/-! ## Numbers -/

theorem littleEndian_append (a b : Bytes) :
    littleEndian (a ++ b) = littleEndian a + 256 ^ a.length * littleEndian b := by
  induction a with
  | nil => simp [littleEndian]
  | cons c a ih =>
    have hcons : ∀ s : Bytes, littleEndian (c :: s) = c.toNat + 256 * littleEndian s := fun _ => rfl
    rw [List.cons_append, hcons, hcons, ih, List.length_cons, Nat.pow_succ, Nat.mul_add,
      Nat.mul_comm (256 ^ a.length) 256, Nat.mul_assoc, Nat.add_assoc]

theorem littleEndian_bytesLE32 (w : UInt32) : littleEndian (bytesLE32 w) = w.toNat := by
  -- every octet is a digit of the word to base 256
  have hbyte : ∀ n < 32, (w >>> UInt32.ofNat n).toUInt8.toNat = w.toNat / 2 ^ n % 256 := by
    intro n hn
    rw [UInt32.toNat_toUInt8, Word.toNat_shiftRight w hn, Nat.shiftRight_eq_div_pow]
  have hw := w.toNat_lt
  have h8 := hbyte 8 (by decide)
  have h16 := hbyte 16 (by decide)
  have h24 := hbyte 24 (by decide)
  have h0 : w.toUInt8.toNat = w.toNat % 256 := UInt32.toNat_toUInt8 w
  calc littleEndian (bytesLE32 w)
      = w.toUInt8.toNat + 256 * ((w >>> UInt32.ofNat 8).toUInt8.toNat +
          256 * ((w >>> UInt32.ofNat 16).toUInt8.toNat +
            256 * ((w >>> UInt32.ofNat 24).toUInt8.toNat + 256 * 0))) := rfl
    _ = w.toNat := by
        rw [h0, h8, h16, h24]
        omega

/-- The number of a string of words begins with the first two. -/
theorem littleEndian_words (u v : UInt32) (ws : List UInt32) :
    littleEndian ((u :: v :: ws).flatMap bytesLE32) =
      u.toNat + (v.toNat <<< 32) + 2 ^ 64 * littleEndian (ws.flatMap bytesLE32) := by
  rw [List.flatMap_cons, List.flatMap_cons, littleEndian_append, littleEndian_append,
    littleEndian_bytesLE32, littleEndian_bytesLE32, length_bytesLE32, length_bytesLE32,
    Nat.shiftLeft_eq]
  omega

/-! ## Core -/

theorem words_toBytes (b : Block) : words b.toBytes = b := by
  apply Vector.ext
  intro i hi
  have hi' : i < b.toList.length := by simpa using hi
  have hpiece : piece 4 i b.toBytes = bytesLE32 b.toList[i] :=
    Pieces.take_drop_flatMap length_bytesLE32 b.toList hi'
  rw [words, Vector.getElem_ofFn, hpiece, littleEndian_bytesLE32, UInt32.ofNat_toNat,
    Vector.getElem_toList]

/-- Four steps are a quarter round. -/
theorem foldl_step (a b c d : Fin 16) (x : Block) :
    [(b, a, d, 7), (c, b, a, 9), (d, c, b, 13), (a, d, c, 18)].foldl step x = quarter a b c d x :=
  rfl

/-- The steps of a double round are a round over the columns and one over the rows. -/
theorem doubleRound_eq (x : Block) : doubleRound x = rowRound (columnRound x) := by
  -- four steps at a time
  have hquarters : steps =
      [(4, 0, 12, 7), (8, 4, 0, 9), (12, 8, 4, 13), (0, 12, 8, 18)] ++
      [(9, 5, 1, 7), (13, 9, 5, 9), (1, 13, 9, 13), (5, 1, 13, 18)] ++
      [(14, 10, 6, 7), (2, 14, 10, 9), (6, 2, 14, 13), (10, 6, 2, 18)] ++
      [(3, 15, 11, 7), (7, 3, 15, 9), (11, 7, 3, 13), (15, 11, 7, 18)] ++
      [(1, 0, 3, 7), (2, 1, 0, 9), (3, 2, 1, 13), (0, 3, 2, 18)] ++
      [(6, 5, 4, 7), (7, 6, 5, 9), (4, 7, 6, 13), (5, 4, 7, 18)] ++
      [(11, 10, 9, 7), (8, 11, 10, 9), (9, 8, 11, 13), (10, 9, 8, 18)] ++
      [(12, 15, 14, 7), (13, 12, 15, 9), (14, 13, 12, 13), (15, 14, 13, 18)] := rfl
  rw [doubleRound, hquarters]
  simp only [List.foldl_append, foldl_step]
  rfl

theorem iterate_doubleRound (n : Nat) (x : Block) : doubleRound^[n] x = rounds n x := by
  induction n with
  | zero => rfl
  | succ n ih =>
    rw [Function.iterate_succ_apply', ih, doubleRound_eq, rounds, rounds, Nat.fold_succ]

theorem salsa_toBytes (b : Block) : salsa b.toBytes = (core 4 b).toBytes := by
  rw [salsa, words_toBytes, iterate_doubleRound, core, Block.add, Block.toBytes]

theorem bytesLE32_xor (u v : UInt32) :
    List.zipWith (· ^^^ ·) (bytesLE32 u) (bytesLE32 v) = bytesLE32 (u ^^^ v) := by
  simp [bytesLE32, UInt32.toUInt8_xor, UInt32.shiftRight_xor]

theorem xor_toBytes (a b : Block) : xor a.toBytes b.toBytes = (a.xor b).toBytes := by
  have hlength : a.toList.length = b.toList.length := by
    rw [Vector.length_toList, Vector.length_toList]
  rw [xor, Block.toBytes, Block.toBytes,
    Pieces.zipWith_flatMap length_bytesLE32 bytesLE32_xor hlength, Block.toBytes, Block.xor,
    Vector.toList_zipWith]

end Standard

end Scrypt

end PassHash
