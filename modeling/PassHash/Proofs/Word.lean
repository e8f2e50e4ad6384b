import Mathlib.Tactic.IntervalCases
import PassHash.Word

/-!
# Words and Their Bytes

A word has the bytes that it was put together from, in both orders, and so have the words of a byte
string that consists of whole words.

## Main statements

- `Word.toNat_shiftRight`, `Word.toNat_shiftLeft`: shifts by a number of bits
- `Word.ofBytes32_eq_foldl`: a word from its bytes one by one
- `Word.bytesBE32_ofBytes32`, `Word.bytesLE32_ofBytes32`: the bytes of a word
- `Word.flatMap_wordsLE32`, `Word.wordsLE32_flatMap`, `Word.flatMap_wordsBE32`,
  `Word.wordsBE32_flatMap`: the bytes of the words of a byte string, and back
-/

namespace PassHash

namespace Word

/-! ## Shifts -/

theorem toNat_shiftRight (x : UInt32) {n : Nat} (hn : n < 32) :
    (x >>> UInt32.ofNat n).toNat = x.toNat >>> n := by
  rw [UInt32.toNat_shiftRight, UInt32.toNat_ofNat_of_lt' (Nat.lt_trans hn (by decide)),
    Nat.mod_eq_of_lt hn]

theorem toNat_shiftLeft (x : UInt32) {n : Nat} (hn : n < 32) :
    (x <<< UInt32.ofNat n).toNat = (x.toNat <<< n) % 2 ^ 32 := by
  rw [UInt32.toNat_shiftLeft, UInt32.toNat_ofNat_of_lt' (Nat.lt_trans hn (by decide)),
    Nat.mod_eq_of_lt hn]

/-! ## Words and bytes -/

/-- A word is made by shifting in its bytes one after the other. -/
theorem ofBytes32_eq_foldl (w x y z : UInt8) :
    ofBytes32 w x y z =
      [w, x, y, z].foldl (fun (v : UInt32) b => (v <<< 8) ||| b.toUInt32) 0 := by
  simp only [List.foldl_cons, List.foldl_nil, ofBytes32]
  apply UInt32.toBitVec_inj.1
  apply BitVec.eq_of_getLsbD_eq
  intro i hi
  interval_cases i <;> simp

theorem bytesBE32_ofBytes32 (a b c d : UInt8) : bytesBE32 (ofBytes32 a b c d) = [a, b, c, d] := by
  simp only [bytesBE32, ofBytes32, List.cons.injEq, and_true]
  refine ⟨?_, ?_, ?_, ?_⟩ <;>
  · apply UInt8.toBitVec_inj.1
    apply BitVec.eq_of_getLsbD_eq
    intro i hi
    interval_cases i <;> simp

theorem bytesLE32_ofBytes32 (a b c d : UInt8) : bytesLE32 (ofBytes32 d c b a) = [a, b, c, d] := by
  have h := congrArg List.reverse (bytesBE32_ofBytes32 d c b a)
  exact h

/-- The word whose bytes are those of a word, in either order. -/
theorem ofBytes32_bytesLE32 (x : UInt32) :
    ofBytes32 (x >>> 24).toUInt8 (x >>> 16).toUInt8 (x >>> 8).toUInt8 x.toUInt8 = x := by
  rw [ofBytes32]
  apply UInt32.toBitVec_inj.1
  apply BitVec.eq_of_getLsbD_eq
  intro i hi
  -- bit by bit, before a byte made a word again is taken for a remainder
  interval_cases i <;> simp [-UInt32.toUInt32_toUInt8]

/-! ## Byte strings -/

/-- Bytes that do not even start with a word, and yet are whole words, are none. -/
theorem eq_nil_of_short {b : Bytes} (h : 4 ∣ b.length)
    (hshort : ∀ w x y z rest, b = w :: x :: y :: z :: rest → False) : b = [] := by
  match b, h, hshort with
  | [], _, _ => rfl
  | [_], h, _ | [_, _], h, _ | [_, _, _], h, _ => simp at h
  | w :: x :: y :: z :: rest, _, hshort => exact (hshort w x y z rest rfl).elim

theorem dvd_of_dvd_cons {w x y z : UInt8} {rest : Bytes}
    (h : 4 ∣ (w :: x :: y :: z :: rest).length) : 4 ∣ rest.length := by
  simp only [List.length_cons] at h
  omega

theorem flatMap_wordsLE32 {b : Bytes} (h : 4 ∣ b.length) :
    (wordsLE32 b).flatMap bytesLE32 = b := by
  induction b using wordsLE32.induct with
  | case1 a b c d rest ih =>
    rw [wordsLE32, List.flatMap_cons, bytesLE32_ofBytes32, ih (dvd_of_dvd_cons h)]
    rfl
  | case2 b hb =>
    rw [eq_nil_of_short h hb]
    rfl

theorem wordsLE32_flatMap (ws : List UInt32) : wordsLE32 (ws.flatMap bytesLE32) = ws := by
  induction ws with
  | nil => rfl
  | cons w ws ih =>
    rw [List.flatMap_cons, bytesLE32, List.cons_append, List.cons_append, List.cons_append,
      List.cons_append, List.nil_append, wordsLE32, ofBytes32_bytesLE32, ih]

theorem flatMap_wordsBE32 {b : Bytes} (h : 4 ∣ b.length) :
    (wordsBE32 b).flatMap bytesBE32 = b := by
  induction b using wordsBE32.induct with
  | case1 a b c d rest ih =>
    rw [wordsBE32, List.flatMap_cons, bytesBE32_ofBytes32, ih (dvd_of_dvd_cons h)]
    rfl
  | case2 b hb =>
    rw [eq_nil_of_short h hb]
    rfl

theorem wordsBE32_flatMap (ws : List UInt32) : wordsBE32 (ws.flatMap bytesBE32) = ws := by
  induction ws with
  | nil => rfl
  | cons w ws ih =>
    rw [List.flatMap_cons, bytesBE32, List.cons_append, List.cons_append, List.cons_append,
      List.cons_append, List.nil_append, wordsBE32, ofBytes32_bytesLE32, ih]

end Word

end PassHash
