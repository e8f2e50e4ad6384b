import Mathlib.Data.Fin.Basic
import PassHash.Proofs.Bytes.Pieces
import PassHash.Proofs.Cipher.Des.KeySchedule

/-!
# The Cipher over Words

One round over words does to the bits of a block what a round of the standard does, with its key and
its salt; hence so do the sixteen rounds, and with the permutations around them the whole cipher.

## Main statements

- `ofNat_expand`: the expansion by shifts
- `Context.ofNat_keyed`: expansion, exchange and addition of a round key
- `Standard.exchange_halves`: the exchange of bits by the salt
- `substituteAll_flatMap`: the substitutions in pairs
- `Context.halves_round`, `Context.halves_rounds`: one round and sixteen rounds
- `Context.crypt_eq_standard`: the cipher is that of the standard, and every index lies in its
  table
-/

namespace PassHash

namespace Des

open Standard Bits

/-! ## Expansion -/

theorem testBit_field_shiftRight (r m s : UInt32) (i : Nat) :
    ((r &&& m) >>> s).toNat.testBit i =
      (r.toNat.testBit (s.toNat % 32 + i) &&
        decide (m.toNat / 2 ^ (s.toNat % 32 + i) % 2 = 1)) := by
  rw [UInt32.toNat_shiftRight, Nat.testBit_shiftRight, UInt32.toNat_and, Nat.testBit_and,
    ← Nat.testBit_eq_decide_div_mod_eq]

theorem testBit_field_shiftLeft (r m s : UInt32) {i : Nat} (hi : i < 32) :
    ((r &&& m) <<< s).toNat.testBit i =
      (decide (s.toNat % 32 ≤ i) && (r.toNat.testBit (i - s.toNat % 32) &&
        decide (m.toNat / 2 ^ (i - s.toNat % 32) % 2 = 1))) := by
  rw [UInt32.toNat_shiftLeft, Nat.testBit_mod_two_pow, decide_eq_true hi, Bool.true_and,
    Nat.testBit_shiftLeft, UInt32.toNat_and, Nat.testBit_and, ← Nat.testBit_eq_decide_div_mod_eq]

/-- The two words of the expansion have the bits that its table names. -/
theorem ofNat_expand (r : UInt32) :
    ofNat 24 (expandLeft r).toNat ++ ofNat 24 (expandRight r).toNat =
      select expansion (ofNat 32 r.toNat) := by
  -- bit by bit, what every field of the two words contributes
  simp only [ofNat, select, expansion, expandLeft, expandRight, List.range, List.range.loop,
    List.map, UInt32.toNat_or, Nat.testBit_or, testBit_field_shiftRight, testBit_field_shiftLeft,
    Nat.reduceSub, Nat.reduceLT, Nat.reduceMod, UInt32.reduceToNat]
  simp

theorem field_shiftRight_lt {r m s : UInt32} {n : Nat} (h : m.toNat >>> (s.toNat % 32) < 2 ^ n) :
    ((r &&& m) >>> s).toNat < 2 ^ n := by
  rw [UInt32.toNat_shiftRight, UInt32.toNat_and]
  refine Nat.lt_of_le_of_lt ?_ h
  rw [Nat.shiftRight_eq_div_pow, Nat.shiftRight_eq_div_pow]
  exact Nat.div_le_div_right Nat.and_le_right

theorem field_shiftLeft_lt {r m s : UInt32} {n : Nat} (h : m.toNat <<< (s.toNat % 32) < 2 ^ n) :
    ((r &&& m) <<< s).toNat < 2 ^ n := by
  rw [UInt32.toNat_shiftLeft, UInt32.toNat_and]
  refine Nat.lt_of_le_of_lt (Nat.le_trans (Nat.mod_le _ _) ?_) h
  rw [Nat.shiftLeft_eq, Nat.shiftLeft_eq]
  exact Nat.mul_le_mul_right _ Nat.and_le_right

theorem expandLeft_lt (r : UInt32) : (expandLeft r).toNat < 2 ^ 24 := by
  simp only [expandLeft, UInt32.toNat_or]
  refine Nat.or_lt_two_pow
    (Nat.or_lt_two_pow (Nat.or_lt_two_pow (Nat.or_lt_two_pow ?_ ?_) ?_) ?_) ?_
  · exact field_shiftLeft_lt (by decide)
  · exact field_shiftRight_lt (by decide)
  · exact field_shiftRight_lt (by decide)
  · exact field_shiftRight_lt (by decide)
  · exact field_shiftRight_lt (by decide)

theorem expandRight_lt (r : UInt32) : (expandRight r).toNat < 2 ^ 24 := by
  simp only [expandRight, UInt32.toNat_or]
  refine Nat.or_lt_two_pow
    (Nat.or_lt_two_pow (Nat.or_lt_two_pow (Nat.or_lt_two_pow ?_ ?_) ?_) ?_) ?_
  · exact field_shiftLeft_lt (by decide)
  · exact field_shiftLeft_lt (by decide)
  · exact field_shiftLeft_lt (by decide)
  · exact field_shiftLeft_lt (by decide)
  · exact field_shiftRight_lt (by decide)

/-! ## Salt -/

theorem salt_bit_iff (salt : UInt32) {j : Nat} (hj : j < 24) :
    (salt >>> UInt32.ofNat j) &&& 1 = 1 ↔ salt.toNat.testBit j = true := by
  rw [← UInt32.toNat_inj, UInt32.toNat_and, Word.toNat_shiftRight salt (by omega),
    Nat.testBit_eq_decide_div_mod_eq, Nat.shiftRight_eq_div_pow, decide_eq_true_eq]
  exact Eq.congr_left (Nat.and_one_is_mod _)

theorem testBit_saltMask_iff (salt : UInt32) (k : Nat) :
    (saltMask salt).toNat.testBit k = true ↔
      ∃ j < 24, salt.toNat.testBit j = true ∧ k = 23 - j := by
  refine Mask.testBit_fold fun j hj mask => ?_
  have hbit : UInt32.ofNat (1 <<< (23 - j)) = Mask.bit 24 j := rfl
  have hmask : (Mask.bit 24 j).toNat.testBit k = decide (k = 23 - j) :=
    Mask.testBit_bit hj (by decide)
  split
  · next hset =>
    rw [UInt32.toNat_or, Nat.testBit_or, hbit, hmask, Bool.or_eq_true, decide_eq_true_eq,
      (salt_bit_iff salt hj).1 hset, and_iff_right rfl]
  · next hclear =>
    rw [salt_bit_iff salt hj] at hclear
    rw [iff_self_or]
    rintro ⟨hset, -⟩
    exact absurd hset hclear

/-- Bit `i` of the salt is bit `i` of the mask, counted from the top. -/
theorem testBit_saltMask (salt : UInt32) {i : Nat} (hi : i < 24) :
    (saltMask salt).toNat.testBit (24 - 1 - i) = salt.toNat.testBit i := by
  rw [Bool.eq_iff_iff, testBit_saltMask_iff]
  constructor
  · rintro ⟨j, hj, hset, hk⟩
    obtain rfl : j = i := by omega
    exact hset
  · intro hset
    exact ⟨i, hi, hset, rfl⟩

theorem saltMask_lt (salt : UInt32) : (saltMask salt).toNat < 2 ^ 24 := by
  apply Nat.lt_pow_two_of_testBit
  intro k hk
  rw [Bool.eq_false_iff]
  intro hset
  obtain ⟨j, hj, -, rfl⟩ := (testBit_saltMask_iff salt k).1 hset
  omega

/-- Exchanging bits is adding to both halves the bits in which they differ. -/
theorem Standard.exchange_halves (salt : UInt32) (l r : UInt32) :
    exchange salt (ofNat 24 l.toNat ++ ofNat 24 r.toNat) =
      ofNat 24 (l ^^^ ((l ^^^ r) &&& saltMask salt)).toNat ++
        ofNat 24 (r ^^^ ((l ^^^ r) &&& saltMask salt)).toNat := by
  have hchosen : ∀ s a b : Bool, (if s = true then b else a) = (a ^^ ((a ^^ b) && s)) := by decide
  rw [exchange, show 48 = 24 + 24 from rfl, List.range_add, List.map_append, List.map_map]
  -- one half of the word takes from the other what differs
  congr 1
  · refine List.map_congr_left fun i hi => ?_
    have hi := List.mem_range.1 hi
    have hother : (i + 24) % (24 + 24) = i + 24 := Nat.mod_eq_of_lt (by omega)
    rw [Nat.mod_eq_of_lt hi, hother, UInt32.toNat_xor, Nat.testBit_xor, UInt32.toNat_and,
      Nat.testBit_and, UInt32.toNat_xor, Nat.testBit_xor, testBit_saltMask salt hi, ← hchosen]
    split
    · rw [List.getD_append_right _ _ _ _ (by simp), length_ofNat, getD_ofNat (by omega),
        Nat.add_sub_cancel]
    · rw [List.getD_append _ _ _ _ (by simpa using hi), getD_ofNat hi]
  · refine List.map_congr_left fun i hi => ?_
    have hi := List.mem_range.1 hi
    have hother : (24 + i + 24) % (24 + 24) = i := by omega
    have hsame : (24 + i) % 24 = i := by omega
    rw [Function.comp_apply, hsame, hother, UInt32.toNat_xor, Nat.testBit_xor, UInt32.toNat_and,
      Nat.testBit_and, UInt32.toNat_xor, Nat.testBit_xor, testBit_saltMask salt hi,
      Bool.xor_comm (l.toNat.testBit _), ← hchosen]
    split
    · rw [List.getD_append _ _ _ _ (by simpa using hi), getD_ofNat hi]
    · rw [List.getD_append_right _ _ _ _ (by simp), length_ofNat, getD_ofNat (by omega),
        Nat.add_sub_cancel_left]

/-! ## Expanded words -/

namespace Context

variable (ctx : Context) (key : Block) (salt : UInt32)

/-- The words of a round after the exchange of bits and the addition of the round key. -/
theorem keyed_withKey_withSalt (i : Fin 16) (r : UInt32) :
    ((ctx.withKey key).withSalt salt).keyed i r =
      (expandLeft r ^^^ ((expandLeft r ^^^ expandRight r) &&& saltMask salt) ^^^
          roundKey roundMasks.1 (keyHalves key) i,
        expandRight r ^^^ ((expandLeft r ^^^ expandRight r) &&& saltMask salt) ^^^
          roundKey roundMasks.2 (keyHalves key) i) := by
  have hleft : ((ctx.withKey key).withSalt salt).left.get i =
      roundKey roundMasks.1 (keyHalves key) i := Vector.getElem_ofFn i.isLt
  have hright : ((ctx.withKey key).withSalt salt).right.get i =
      roundKey roundMasks.2 (keyHalves key) i := Vector.getElem_ofFn i.isLt
  rw [keyed, hleft, hright, UInt32.xor_assoc, UInt32.xor_assoc]
  rfl

/-- Expansion, exchange of bits and addition of the round key. -/
theorem ofNat_keyed (i : Fin 16) (r : UInt32) :
    ofNat 24 (((ctx.withKey key).withSalt salt).keyed i r).1.toNat ++
        ofNat 24 (((ctx.withKey key).withSalt salt).keyed i r).2.toNat =
      xor (exchange salt (select expansion (ofNat 32 r.toNat)))
        (Standard.roundKey key.bits i) := by
  rw [← ofNat_expand, exchange_halves, ← ofNat_roundKey key i.isLt, xor_append (by simp),
    ← ofNat_xor, ← ofNat_xor, ← UInt32.toNat_xor, ← UInt32.toNat_xor, keyed_withKey_withSalt]

theorem keyed_lt (i : Fin 16) (r : UInt32) :
    (((ctx.withKey key).withSalt salt).keyed i r).1.toNat < 2 ^ 24 ∧
      (((ctx.withKey key).withSalt salt).keyed i r).2.toNat < 2 ^ 24 := by
  have hdiffer : ((expandLeft r ^^^ expandRight r) &&& saltMask salt).toNat < 2 ^ 24 := by
    rw [UInt32.toNat_and]
    exact Nat.and_lt_two_pow _ (saltMask_lt salt)
  simp only [keyed_withKey_withSalt, UInt32.toNat_xor _ (roundKey _ _ _),
    UInt32.toNat_xor _ (_ &&& _)]
  exact ⟨Nat.xor_lt_two_pow (Nat.xor_lt_two_pow (expandLeft_lt r) hdiffer) (roundKey_lt _ _),
    Nat.xor_lt_two_pow (Nat.xor_lt_two_pow (expandRight_lt r) hdiffer) (roundKey_lt _ _)⟩

/-- Every index of a round lies in its table. -/
theorem indices_lt (i : Fin 16) (r : UInt32) (k : Fin 4) :
    ((ctx.withKey key).withSalt salt).indices i r k < 4096 := by
  obtain ⟨hleft, hright⟩ := keyed_lt ctx key salt i r
  have hhigh : ∀ w : UInt32, w.toNat < 2 ^ 24 → (w >>> 12).toNat < 4096 := by
    intro w hw
    rw [UInt32.toNat_shiftRight, Nat.shiftRight_eq_div_pow]
    exact Nat.div_lt_of_lt_mul hw
  have hlow : ∀ w : UInt32, (w &&& 0xfff).toNat < 4096 := by
    intro w
    rw [UInt32.toNat_and]
    exact Nat.and_lt_two_pow (n := 12) _ (by decide)
  match k with
  | 0 => exact hhigh _ hleft
  | 1 => exact hlow _
  | 2 => exact hhigh _ hright
  | 3 => exact hlow _

/-- The indices of a round are its two words in pieces of twelve bits. -/
theorem ofNat_indices (i : Fin 16) (r : UInt32) :
    ((List.finRange 4).flatMap fun k => ofNat 12 (ctx.indices i r k)) =
      ofNat 24 (ctx.keyed i r).1.toNat ++ ofNat 24 (ctx.keyed i r).2.toNat := by
  have hword : ∀ w : UInt32,
      ofNat 12 (w >>> 12).toNat ++ ofNat 12 (w &&& 0xfff).toNat = ofNat 24 w.toNat := by
    intro w
    have hhigh : (w >>> 12).toNat = w.toNat / 2 ^ 12 := by
      rw [UInt32.toNat_shiftRight, Nat.shiftRight_eq_div_pow]
      rfl
    have hlow : (w &&& 0xfff).toNat = w.toNat % 2 ^ 12 := by
      rw [UInt32.toNat_and]
      exact Nat.and_two_pow_sub_one_eq_mod _ 12
    rw [hhigh, hlow, ofNat_mod, ← ofNat_add]
  rw [← hword, ← hword, List.append_assoc]
  rfl

end Context

/-! ## Substitutions -/

theorem substitute_lt {n a : Nat} (hn : n < 8) (ha : a < 64) : substitute n a < 2 ^ 4 := by
  have hall : ∀ n < 8, ∀ a < 64, substitute n a < 2 ^ 4 := by decide +kernel
  exact hall n hn a ha

theorem substitution_ofNat {n a : Nat} (hn : n < 8) (ha : a < 64) :
    substitution n (ofNat 6 a) = ofNat 4 (substitute n a) := by
  have hall : ∀ n < 8, ∀ a < 64, substitution n (ofNat 6 a) = ofNat 4 (substitute n a) := by
    decide +kernel
  exact hall n hn a ha

theorem substitutePair_lt {k v : Nat} (hk : k < 4) (hv : v < 4096) :
    substitutePair k v < 2 ^ 8 := by
  have hhigh : substitute (2 * k) (v / 64) < 2 ^ 4 := substitute_lt (by omega) (by omega)
  have hlow : substitute (2 * k + 1) (v % 64) < 2 ^ 4 := substitute_lt (by omega) (by omega)
  rw [substitutePair]
  omega

/-- A pair of substitutions on a piece of twelve bits. -/
theorem ofNat_substitutePair {k v : Nat} (hk : k < 4) (hv : v < 4096) :
    ofNat 8 (substitutePair k v) =
      substitution (2 * k) (ofNat 6 (v / 64)) ++ substitution (2 * k + 1) (ofNat 6 (v % 64)) := by
  have hlow : substitute (2 * k + 1) (v % 64) < 2 ^ 4 := substitute_lt (by omega) (by omega)
  have hdiv : substitutePair k v / 2 ^ 4 = substitute (2 * k) (v / 64) := by
    rw [substitutePair]
    omega
  have hmod : substitutePair k v % 2 ^ 4 = substitute (2 * k + 1) (v % 64) := by
    rw [substitutePair]
    omega
  rw [substitution_ofNat (by omega) (by omega), substitution_ofNat (by omega) (by omega), ← hdiv,
    ← hmod, ofNat_mod, ← ofNat_add 4 4]

/-- The substitutions of four pieces of twelve bits are four pairs of substitutions. -/
theorem substituteAll_flatMap {f : Fin 4 → Nat} (hf : ∀ k, f k < 4096) :
    substituteAll ((List.finRange 4).flatMap fun k => ofNat 12 (f k)) =
      (List.finRange 4).flatMap fun k : Fin 4 => ofNat 8 (substitutePair k (f k)) := by
  -- the same bits in pieces of six
  let values : List Nat := (List.finRange 4).flatMap fun k => [f k / 64, f k % 64]
  have hsix : ((List.finRange 4).flatMap fun k => ofNat 12 (f k)) = values.flatMap (ofNat 6) := by
    have hpiece : ∀ v, ofNat 12 v = ofNat 6 (v / 64) ++ ofNat 6 (v % 64) := by
      intro v
      rw [show 64 = 2 ^ 6 from rfl, ofNat_mod, ← ofNat_add 6 6]
    simp only [values, hpiece]
    rfl
  have hpieces : ∀ n ∈ List.range 8,
      substitution n (((values.flatMap (ofNat 6)).drop (6 * n)).take 6) =
        substitution n (ofNat 6 (values.getD n 0)) := by
    intro n hn
    have hn : n < values.length := List.mem_range.1 hn
    rw [Pieces.take_drop_flatMap (length_ofNat 6) values hn, List.getD_eq_getElem _ _ hn]
  have hpairs : ∀ k ∈ List.finRange 4, ofNat 8 (substitutePair k (f k)) =
      substitution (2 * k) (ofNat 6 (f k / 64)) ++ substitution (2 * k + 1) (ofNat 6 (f k % 64)) :=
    fun k _ => ofNat_substitutePair k.isLt (hf k)
  rw [hsix, substituteAll, List.flatMap_congr hpieces, List.flatMap_congr hpairs]
  simp [values, List.range_succ, List.finRange_succ]

/-! ## Output permutation -/

theorem routes_output : Routes (target outputPermutation) outputPermutation :=
  routes_target (by decide)

/-- The tables of pairs are tables of masks over the outputs of the pairs. -/
theorem union_substitutionMasks {f : Fin 4 → Nat} (hf : ∀ k, f k < 4096) :
    Mask.union substitutionMasks f =
      Mask.union (Mask.table (target outputPermutation) 4 8 8 0 32)
        (fun k => substitutePair k (f k)) := by
  -- the tables agree at the entries that are looked up
  have hentry : ∀ k, Mask.entry substitutionMasks k (f k) =
      Mask.entry (Mask.table (target outputPermutation) 4 8 8 0 32) k
        (substitutePair k (f k)) := by
    intro k
    rw [Mask.entry_table k (substitutePair_lt k.isLt (hf k))]
    simp [Mask.entry, substitutionMasks, hf k]
  simp only [Mask.union, hentry]

theorem slices_flatMap {slices width : Nat} {f : Fin slices → Nat} (hf : ∀ k, f k < 2 ^ width) :
    Slices f width width ((List.finRange slices).flatMap fun k => ofNat width (f k)) := by
  constructor
  · exact hf
  · intro k i hi
    have hk : k.val < (List.finRange slices).length := by simp
    have hpiece := Pieces.take_drop_flatMap (fun k => length_ofNat width (f k)) _ hk
    rw [List.getElem_finRange] at hpiece
    rw [← getD_take_drop hi, hpiece, Fin.cast_mk, getD_ofNat hi]

/-! ## Rounds -/

namespace Context

variable (ctx : Context) (key : Block) (salt : UInt32)

theorem ofNat_roundFunction (i : Fin 16) (r : UInt32) :
    ofNat 32 (((ctx.withKey key).withSalt salt).roundFunction i r).toNat =
      Standard.roundFunction salt (Standard.roundKey key.bits i) (ofNat 32 r.toNat) := by
  -- the outputs of the pairs are the bytes that the masks are indexed by
  have hindices := indices_lt ctx key salt i r
  have hslices := slices_flatMap fun k : Fin 4 => substitutePair_lt k.isLt (hindices k)
  have hlength : ∀ b, (select outputPermutation b).length ≤ 32 := fun b => by
    rw [length_select]
    decide
  rw [roundFunction, union_substitutionMasks hindices,
    routes_output.ofNat_union (by decide) hslices (by decide) (by decide), List.drop_zero,
    List.take_of_length_le (hlength _), ← substituteAll_flatMap hindices, ofNat_indices,
    ofNat_keyed, Standard.roundFunction]

end Context

namespace Block

/-- The bits of the two halves of a block. -/
def halves (b : Block) : Bits × Bits := (ofNat 32 b.left.toNat, ofNat 32 b.right.toNat)

/-- What steps do to blocks, they do to their bits when each step does. -/
theorem halves_foldl {n : Nat} {f : Block → Fin n → Block} {g : Bits × Bits → Fin n → Bits × Bits}
    (h : ∀ b i, (f b i).halves = g b.halves i) (b : Block) :
    (Fin.foldl n f b).halves = Fin.foldl n g b.halves := by
  induction n generalizing b with
  | zero => simp
  | succ n ih =>
    rw [Fin.foldl_succ, Fin.foldl_succ, ← h]
    exact ih (fun b i => h b i.succ) _

end Block

namespace Context

variable (ctx : Context) (key : Block) (salt : UInt32)

/-- One round on the bits of a block. -/
theorem halves_round (i : Fin 16) (b : Block) :
    (((ctx.withKey key).withSalt salt).round i b).halves =
      Standard.round salt (Standard.roundKey key.bits i) b.halves := by
  rw [round, Block.halves, UInt32.xor_comm, UInt32.toNat_xor, ofNat_xor, ofNat_roundFunction]
  rfl

theorem key_eq_keyIndex (direction : Direction) (i : Fin 16) :
    (direction.key i).val = keyIndex direction i := by
  cases direction with
  | encrypt => rfl
  | decrypt =>
    rw [Direction.key, keyIndex, Fin.val_rev]
    omega

/-- The sixteen rounds on the bits of a block. -/
theorem halves_rounds (direction : Direction) (b : Block) :
    (Fin.foldl 16 (fun b i => ((ctx.withKey key).withSalt salt).round (direction.key i) b)
        b).halves =
      Fin.foldl 16 (fun b i =>
        Standard.round salt (Standard.roundKey key.bits (keyIndex direction i)) b) b.halves := by
  refine Block.halves_foldl (fun b i => ?_) b
  rw [halves_round, key_eq_keyIndex]

theorem bits_crypt (direction : Direction) (b : Block) :
    (((ctx.withKey key).withSalt salt).crypt direction 1 b).bits =
      Standard.crypt direction salt key.bits b.bits := by
  -- the permuted block, cut in the middle
  have hhalves : (b.permute initialMasks).halves =
      ((select initialPermutation b.bits).take 32, (select initialPermutation b.bits).drop 32) := by
    rw [← Block.bits_permute_initialMasks, Block.bits, List.take_left' (length_ofNat _ _),
      List.drop_left' (length_ofNat _ _)]
    rfl
  rw [crypt, Block.bits_permute_finalMasks, Standard.crypt, ← hhalves,
    ← halves_rounds ctx key salt direction]
  rfl

end Context

/-! ## The cipher on bytes -/

/-- Under every key and salt, the cipher encrypts and decrypts as the standard says, and no round
    looks beyond its tables. -/
theorem Context.crypt_eq_standard (ctx : Context) (direction : Direction) (salt : UInt32)
    {key block : Bytes} (hkey : key.length = 8) (hblock : block.length = 8) :
    Bits.ofBytes (((ctx.withKey (.ofBytes key)).withSalt salt).crypt direction 1
        (.ofBytes block)).toBytes =
      Standard.crypt direction salt (Bits.ofBytes key) (Bits.ofBytes block) ∧
    ∀ i r k, ((ctx.withKey (.ofBytes key)).withSalt salt).indices i r k < 4096 := by
  refine ⟨?_, fun i r k => indices_lt ctx (.ofBytes key) salt i r k⟩
  rw [Block.ofBytes_toBytes, bits_crypt, Block.bits_ofBytes hkey, Block.bits_ofBytes hblock]

/-- A decryption under a salt of ten bits. -/
theorem Context.crypt_eq_standard_decrypt :
    let key : Bytes := [0x7c, 0xa1, 0x10, 0x45, 0x4a, 0x1a, 0x6e, 0x57]
    let block : Bytes := [0xcd, 0x48, 0x92, 0xb3, 0xcd, 0x34, 0xea, 0x73]
    let ctx := (zero.withKey (.ofBytes key)).withSalt 0x5a3c81
    key.length = 8 ∧ block.length = 8 ∧
      Bits.ofBytes (ctx.crypt .decrypt 1 (.ofBytes block)).toBytes =
        Bits.ofBytes [0x01, 0xa1, 0xd6, 0xd0, 0x39, 0x77, 0x67, 0x42] ∧
      ∀ i r k, ctx.indices i r k < 4096 := by
  intro key block ctx
  have h : Bits.ofBytes (ctx.crypt .decrypt 1 (.ofBytes block)).toBytes =
      Standard.crypt .decrypt 0x5a3c81 (Bits.ofBytes key) (Bits.ofBytes block) ∧
        ∀ i r k, ctx.indices i r k < 4096 :=
    Context.crypt_eq_standard zero .decrypt 0x5a3c81 rfl rfl
  refine ⟨rfl, rfl, ?_, h.2⟩
  rw [h.1]
  decide +kernel

end Des

end PassHash
