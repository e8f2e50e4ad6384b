import Mathlib.Data.List.GetD
import PassHash.Proofs.Cipher.Des.Masks
import PassHash.Proofs.Word

/-!
# Blocks and Round Keys as Bits

What blocks, their permutations and the round keys are bit by bit. A half of the key is rotated in
28 bits of a word whose upper bits are not cleared; only the lower 28 are ever looked at.

## Main statements

- `Block.bits_ofBytes`, `Block.ofBytes_toBytes`: the bits of a block are those of its bytes
- `Block.bits_permute_initialMasks`, `Block.bits_permute_finalMasks`: the two permutations
- `ofNat_rotate28`: rotating a half of the key
- `ofNat_roundKey`: the round keys are those of the standard
-/

namespace PassHash

namespace Des

open Standard Bits

/-! ## Bits of numbers -/

namespace Standard

namespace Bits

theorem ofNat_add (m n v : Nat) : ofNat (m + n) v = ofNat m (v / 2 ^ n) ++ ofNat n v := by
  refine (ofNat_eq_iff (by simp)).2 fun j hj => ?_
  -- the first `m` places are those of the quotient
  rcases Nat.lt_or_ge j m with hjm | hjm
  · have hplace : m + n - 1 - j = m - 1 - j + n := by omega
    rw [List.getD_append _ _ _ _ (by simpa using hjm), getD_ofNat hjm, Nat.testBit_div_two_pow,
      hplace]
  · have hplace : m + n - 1 - j = n - 1 - (j - m) := by omega
    rw [List.getD_append_right _ _ _ _ (by simpa using hjm), length_ofNat, getD_ofNat (by omega),
      hplace]

theorem ofNat_mod (n v : Nat) : ofNat n (v % 2 ^ n) = ofNat n v := by
  refine (ofNat_eq_iff (length_ofNat n v)).2 fun j hj => ?_
  have hplace : n - 1 - j < n := by omega
  rw [getD_ofNat hj, Nat.testBit_mod_two_pow, decide_eq_true hplace, Bool.true_and]

theorem xor_append {a b c d : Bits} (h : a.length = b.length) :
    xor (a ++ c) (b ++ d) = xor a b ++ xor c d :=
  List.zipWith_append h

theorem ofNat_xor (n v w : Nat) : ofNat n (v ^^^ w) = xor (ofNat n v) (ofNat n w) := by
  rw [xor, ofNat, ofNat, ofNat, List.zipWith_map, List.zipWith_self]
  simp only [Nat.testBit_xor]

theorem ofBytes_bytesBE32 (w : UInt32) : ofBytes (Word.bytesBE32 w) = ofNat 32 w.toNat := by
  have hbyte : ∀ n < 32,
      ofNat 8 (w >>> UInt32.ofNat n).toUInt8.toNat = ofNat 8 (w.toNat / 2 ^ n) := by
    intro n hn
    rw [UInt32.toNat_toUInt8, Word.toNat_shiftRight _ hn, ofNat_mod, Nat.shiftRight_eq_div_pow]
  have hlow : ofNat 8 w.toUInt8.toNat = ofNat 8 w.toNat := by
    rw [UInt32.toNat_toUInt8, ofNat_mod]
  calc ofBytes (Word.bytesBE32 w)
      = ofNat 8 (w >>> UInt32.ofNat 24).toUInt8.toNat ++
          (ofNat 8 (w >>> UInt32.ofNat 16).toUInt8.toNat ++
            (ofNat 8 (w >>> UInt32.ofNat 8).toUInt8.toNat ++ ofNat 8 w.toUInt8.toNat)) := by
        simp [ofBytes, Word.bytesBE32]
    _ = ofNat 32 w.toNat := by
        rw [hbyte 24 (by decide), hbyte 16 (by decide), hbyte 8 (by decide), hlow, ← ofNat_add 8 8,
          ← ofNat_add 8 16, ← ofNat_add 8 24]

end Bits

end Standard

/-! ## Blocks -/

namespace Block

/-- The bits of a block. -/
def bits (b : Block) : Bits := ofNat 32 b.left.toNat ++ ofNat 32 b.right.toNat

theorem ofBytes_toBytes (b : Block) : Bits.ofBytes b.toBytes = b.bits := by
  rw [toBytes, Bits.ofBytes, List.flatMap_append]
  exact congrArg₂ _ (ofBytes_bytesBE32 b.left) (ofBytes_bytesBE32 b.right)

theorem toBytes_ofBytes {b : Bytes} (h : b.length = 8) : (ofBytes b).toBytes = b := by
  match b, h with
  | [b₁, b₂, b₃, b₄, b₅, b₆, b₇, b₈], _ =>
    rw [ofBytes]
    simp only [Word.wordsBE32, toBytes, Word.bytesBE32_ofBytes32]
    rfl

theorem bits_ofBytes {b : Bytes} (h : b.length = 8) : (ofBytes b).bits = Bits.ofBytes b := by
  rw [← ofBytes_toBytes, toBytes_ofBytes h]

end Block

/-! ## Slices of blocks and keys -/

/-- Masked shifts of two words are the slices of their bits. -/
theorem slices_halves {f : Fin 8 → Nat} {l r mask : UInt32} {stride : Nat} (hstride : stride ≤ 8)
    (hmask : mask.toNat = 2 ^ stride - 1)
    (hf : ∀ k : Fin 8, f k = if k.val < 4 then
      ((l >>> UInt32.ofNat (3 * stride - stride * k)) &&& mask).toNat
      else ((r >>> UInt32.ofNat (7 * stride - stride * k)) &&& mask).toNat) :
    Slices f stride stride (ofNat (4 * stride) l.toNat ++ ofNat (4 * stride) r.toNat) := by
  -- the mask clears no bit of the slice itself
  have hbit : ∀ (w : UInt32) (s i : Nat), s < 32 → i < stride →
      ((w >>> UInt32.ofNat s) &&& mask).toNat.testBit i = w.toNat.testBit (s + i) := by
    intro w s i hs hi
    rw [UInt32.toNat_and, hmask, Nat.testBit_and, Word.toNat_shiftRight w hs,
      Nat.testBit_shiftRight, Nat.testBit_two_pow_sub_one, decide_eq_true hi, Bool.and_true]
  constructor
  · intro k
    have hand : ∀ w : UInt32, (w &&& mask).toNat < 2 ^ stride := by
      intro w
      rw [UInt32.toNat_and, hmask]
      exact Nat.and_lt_two_pow _ (Nat.sub_lt (Nat.two_pow_pos stride) Nat.one_pos)
    rw [hf]
    split
    · exact hand _
    · exact hand _
  · intro k i hi
    have hk := k.isLt
    rw [hf]
    split
    · next hk4 =>
      have hfits : stride * k + stride ≤ 4 * stride := by
        calc stride * k + stride = (k + 1) * stride := by rw [Nat.succ_mul, Nat.mul_comm]
          _ ≤ 4 * stride := Nat.mul_le_mul_right _ hk4
      rw [hbit l _ _ (by omega) (by omega),
        List.getD_append _ _ _ _ (by rw [length_ofNat]; omega), getD_ofNat (by omega)]
      congr 1
      omega
    · next hk4 =>
      have hle : 4 * stride ≤ stride * k := by
        rw [Nat.mul_comm]
        exact Nat.mul_le_mul_left _ (Nat.le_of_not_lt hk4)
      have hfits : stride * k + stride ≤ 8 * stride := by
        calc stride * k + stride = (k + 1) * stride := by rw [Nat.succ_mul, Nat.mul_comm]
          _ ≤ 8 * stride := Nat.mul_le_mul_right _ hk
      rw [hbit r _ _ (by omega) (by omega),
        List.getD_append_right _ _ _ _ (by rw [length_ofNat]; omega), length_ofNat,
        getD_ofNat (by omega)]
      congr 1
      omega

theorem Block.slices_byte (b : Block) : Slices b.byte 8 8 b.bits :=
  slices_halves (Nat.le_refl 8) rfl fun _ => rfl

/-- The upper seven bits of every byte. -/
theorem Block.slices_byte_div_two (b : Block) : Slices (fun k => b.byte k / 2) 8 7 b.bits := by
  constructor
  · intro k
    have hk := b.slices_byte.lt k
    omega
  · intro k i hi
    have hplace : 8 - 1 - i = 7 - 1 - i + 1 := by omega
    rw [Nat.testBit_div_two, ← hplace]
    exact b.slices_byte.testBit k i (by omega)

theorem slices_slice28 (c d : UInt32) :
    Slices (slice28 c d) 7 7 (ofNat 28 c.toNat ++ ofNat 28 d.toNat) :=
  slices_halves (by decide) rfl fun _ => rfl

/-! ## Initial and final permutation -/

theorem routes_initial : Routes (target initialPermutation) initialPermutation :=
  routes_target (by decide)

theorem routes_final : Routes (inverseTarget initialPermutation) finalPermutation := by
  have hinside : ∀ p < 64, ∀ o < 64,
      inverseTarget initialPermutation p = some o ↔ finalPermutation[o]? = some (p + 1) := by
    decide +kernel
  intro p o
  -- beyond the block neither table names a bit
  by_cases hp : p < 64
  · by_cases ho : o < 64
    · exact hinside p hp o ho
    · have hnone : finalPermutation[o]? = none := List.getElem?_eq_none (Nat.le_of_not_lt ho)
      have hall : ∀ p < 64, ∀ q ∈ inverseTarget initialPermutation p, q < 64 := by decide +kernel
      rw [hnone]
      constructor
      · intro hq
        exact absurd (hall p hp o hq) ho
      · intro hq
        cases hq
  · have hnone : initialPermutation[p]? = none := List.getElem?_eq_none (Nat.le_of_not_lt hp)
    have hall : ∀ q ∈ finalPermutation, q ≤ 64 := by decide
    rw [inverseTarget, hnone]
    constructor
    · intro hq
      cases hq
    · intro hq
      have := hall _ (List.mem_of_getElem? hq)
      omega

theorem Block.bits_permute_initialMasks (b : Block) :
    (b.permute initialMasks).bits = select initialPermutation b.bits :=
  routes_initial.ofNat_unions (by decide) b.slices_byte (by decide) rfl

theorem Block.bits_permute_finalMasks (b : Block) :
    (b.permute finalMasks).bits = select finalPermutation b.bits :=
  routes_final.ofNat_unions (by decide) b.slices_byte (by decide) rfl

/-! ## Key schedule -/

/-- A half of the key, rotated. -/
theorem ofNat_rotate28 {x : UInt32} (hx : x.toNat < 2 ^ 28) {n : Nat} (hn : n ≤ 28) :
    ofNat 28 (rotate28 x n).toNat = (ofNat 28 x.toNat).rotate n := by
  refine (ofNat_eq_iff (by simp)).2 fun j hj => ?_
  have hhigh : ∀ i, 28 ≤ i → x.toNat.testBit i = false := fun i hi =>
    Nat.testBit_lt_two_pow (Nat.lt_of_lt_of_le hx (Nat.pow_le_pow_right (by decide) hi))
  have hright : (x >>> UInt32.ofNat (28 - n)).toNat.testBit (28 - 1 - j) =
      x.toNat.testBit (28 - n + (28 - 1 - j)) := by
    rw [Word.toNat_shiftRight _ (by omega), Nat.testBit_shiftRight]
  have hleft : (x <<< UInt32.ofNat n).toNat.testBit (28 - 1 - j) =
      (decide (28 - 1 - j ≥ n) && x.toNat.testBit (28 - 1 - j - n)) := by
    rw [Word.toNat_shiftLeft _ (by omega), Nat.testBit_mod_two_pow, Nat.testBit_shiftLeft,
      decide_eq_true (by omega : 28 - 1 - j < 32), Bool.true_and]
  rw [rotate28, UInt32.toNat_or, Nat.testBit_or, hleft, hright, List.getD_eq_getElem?_getD,
    List.getElem?_rotate (by simpa using hj), ← List.getD_eq_getElem?_getD, length_ofNat]
  -- either the bit stays below the top, or it comes around
  rcases Nat.lt_or_ge (j + n) 28 with hjn | hjn
  · have hplace : 28 - 1 - j - n = 28 - 1 - (j + n) := by omega
    rw [Nat.mod_eq_of_lt hjn, getD_ofNat hjn, hhigh (28 - n + (28 - 1 - j)) (by omega),
      Bool.or_false, decide_eq_true (by omega), Bool.true_and, hplace]
  · have hmod : (j + n) % 28 = j + n - 28 := by
      rw [Nat.mod_eq_sub_mod hjn, Nat.mod_eq_of_lt (by omega)]
    have hplace : 28 - n + (28 - 1 - j) = 28 - 1 - (j + n - 28) := by omega
    rw [hmod, getD_ofNat (by omega), decide_eq_false (by omega), Bool.false_and, Bool.false_or,
      hplace]

theorem routes_key : Routes (target keyChoice) keyChoice := routes_target (by decide)

theorem routes_round : Routes (target roundChoice) roundChoice := routes_target (by decide)

theorem keyHalves_lt (key : Block) :
    (keyHalves key).1.toNat < 2 ^ 28 ∧ (keyHalves key).2.toNat < 2 ^ 28 := by
  have hentry : ∀ low k, (Mask.entry (Mask.table (target keyChoice) 8 8 7 low 28) k
      (key.byte k / 2)).toNat < 2 ^ 28 := by
    intro low k
    rw [Mask.entry_table k (key.slices_byte_div_two.lt k)]
    exact Mask.ofSlice_lt (by decide)
  exact ⟨Mask.union_lt (hentry 0), Mask.union_lt (hentry 28)⟩

theorem ofNat_keyHalves (key : Block) :
    ofNat 28 (keyHalves key).1.toNat = (select keyChoice key.bits).take 28 ∧
      ofNat 28 (keyHalves key).2.toNat = (select keyChoice key.bits).drop 28 := by
  have h : ofNat 28 (keyHalves key).1.toNat ++ ofNat 28 (keyHalves key).2.toNat =
      select keyChoice key.bits :=
    routes_key.ofNat_unions (by decide) key.slices_byte_div_two (by decide) rfl
  rw [← h]
  constructor
  · rw [List.take_left' (length_ofNat _ _)]
  · rw [List.drop_left' (length_ofNat _ _)]

/-- The halves after some rounds are the first ones, rotated by the sum of the rotations. -/
theorem Standard.keyHalves_eq_rotate (key : Bits) (i : Nat) :
    Standard.keyHalves key i =
      (((select keyChoice key).take 28).rotate (rotations.take i).sum,
        ((select keyChoice key).drop 28).rotate (rotations.take i).sum) := by
  induction i with
  | zero => simp [Standard.keyHalves]
  | succ i ih =>
    have hsum : (rotations.take (i + 1)).sum = (rotations.take i).sum + rotations.getD i 0 := by
      rw [List.take_add_one, List.sum_append, List.getD_eq_getElem?_getD]
      cases rotations[i]? with
      | none => rfl
      | some n => simp
    rw [Standard.keyHalves, ih]
    simp only [List.rotate_rotate, hsum]

/-- The two words of a round key have the bits of the round key of the standard. -/
theorem ofNat_roundKey (key : Block) {i : Nat} (hi : i < 16) :
    ofNat 24 (roundKey roundMasks.1 (keyHalves key) i).toNat ++
        ofNat 24 (roundKey roundMasks.2 (keyHalves key) i).toNat =
      Standard.roundKey key.bits i := by
  -- the table of the words is the running sum of that of the standard
  have hsum : ∀ i < 16, keyRotations.getD i 0 = (rotations.take (i + 1)).sum ∧
      keyRotations.getD i 0 ≤ 28 := by decide
  obtain ⟨hsum, hle⟩ := hsum i hi
  obtain ⟨hleft, hright⟩ := ofNat_keyHalves key
  obtain ⟨hltLeft, hltRight⟩ := keyHalves_lt key
  have h : ofNat 24 (roundKey roundMasks.1 (keyHalves key) i).toNat ++
      ofNat 24 (roundKey roundMasks.2 (keyHalves key) i).toNat =
        select roundChoice (ofNat 28 (rotate28 (keyHalves key).1 (keyRotations.getD i 0)).toNat ++
          ofNat 28 (rotate28 (keyHalves key).2 (keyRotations.getD i 0)).toNat) :=
    routes_round.ofNat_unions (by decide) (slices_slice28 _ _) (by decide) rfl
  rw [h, ofNat_rotate28 hltLeft hle, ofNat_rotate28 hltRight hle, hleft, hright, hsum,
    Standard.roundKey, Standard.keyHalves_eq_rotate]

theorem roundKey_lt {low : Nat} (halves : UInt32 × UInt32) (i : Nat) :
    (roundKey (Mask.table (target roundChoice) 8 7 7 low 24) halves i).toNat < 2 ^ 24 := by
  have hentry : ∀ c d k, (Mask.entry (Mask.table (target roundChoice) 8 7 7 low 24) k
      (slice28 c d k)).toNat < 2 ^ 24 := by
    intro c d k
    rw [Mask.entry_table k ((slices_slice28 c d).lt k)]
    exact Mask.ofSlice_lt (by decide)
  exact Mask.union_lt (hentry _ _)

end Des

end PassHash
