import Mathlib.Algebra.Ring.Nat
import PassHash.Proofs.Cipher.Des.Standard

/-!
# Masks Move Bits

A table of masks is a permutation of bits, cut into slices: the union of the masks for the slices of
a word is the word that the permutation selects from it, bit by bit.

## Main statements

- `Mask.testBit_ofSlice`: the bits of one mask
- `Mask.testBit_union`: the bits of a union of masks
- `Standard.Routes.ofNat_union`: a union of masks is a selection of bits
-/

namespace PassHash

namespace Des

/-! ## Bits of a list -/

namespace Standard

namespace Bits

@[simp] theorem length_ofNat (n v : Nat) : (ofNat n v).length = n := by
  simp [ofNat]

theorem getElem_ofNat {n v j : Nat} (h : j < (ofNat n v).length) :
    (ofNat n v)[j] = v.testBit (n - 1 - j) := by
  simp [ofNat]

theorem getD_ofNat {n v j : Nat} (h : j < n) :
    (ofNat n v).getD j false = v.testBit (n - 1 - j) := by
  have hlen : j < (ofNat n v).length := by
    rw [length_ofNat]
    exact h
  rw [List.getD_eq_getElem?_getD, List.getElem?_eq_getElem hlen, Option.getD_some, getElem_ofNat]

/-- A number has the bits of a list exactly if they agree at every place. -/
theorem ofNat_eq_iff {n v : Nat} {b : Bits} (hb : b.length = n) :
    ofNat n v = b ↔ ∀ j < n, v.testBit (n - 1 - j) = b.getD j false := by
  constructor
  · rintro rfl j hj
    rw [getD_ofNat hj]
  · intro h
    apply List.ext_getElem (by rw [length_ofNat, hb])
    intro j hj hj'
    rw [length_ofNat] at hj
    rw [getElem_ofNat, h j hj, List.getD_eq_getElem?_getD, List.getElem?_eq_getElem hj',
      Option.getD_some]

@[simp] theorem length_select (table : List Nat) (b : Bits) :
    (select table b).length = table.length := by
  simp [select]

theorem getD_select {table : List Nat} {b : Bits} {j p : Nat} (h : table[j]? = some p) :
    (select table b).getD j false = b.getD (p - 1) false := by
  rw [select, List.getD_eq_getElem?_getD, List.getElem?_map, h, Option.map_some, Option.getD_some]

theorem getD_take_drop {b : Bits} {low size j : Nat} (hj : j < size) :
    ((b.drop low).take size).getD j false = b.getD (low + j) false := by
  rw [List.getD_eq_getElem?_getD, List.getElem?_take_of_lt hj, List.getElem?_drop,
    List.getD_eq_getElem?_getD]

end Bits

end Standard

/-! ## Bits of a mask -/

namespace Mask

/-- A mask of a single bit. -/
theorem testBit_bit {size i j : Nat} (hi : i < size) (hsize : size ≤ 32) :
    (bit size i).toNat.testBit j = decide (j = size - 1 - i) := by
  have hlt : 2 ^ (size - 1 - i) < 2 ^ 32 := Nat.pow_lt_pow_right (by decide) (by omega)
  rw [bit, Nat.one_shiftLeft, UInt32.toNat_ofNat_of_lt' hlt, Nat.testBit_two_pow]
  exact decide_eq_decide.2 eq_comm

/-- What a bit of the input contributes: the bit that it goes to, if that is one of those kept. -/
theorem testBit_contribute {c : Bool} {t : Option Nat} {low size p : Nat} (mask : UInt32)
    (hsize : size ≤ 32) :
    (if c then
        match t with
        | some o => if low ≤ o ∧ o < low + size then mask ||| bit size (o - low) else mask
        | none => mask
      else mask).toNat.testBit p = true ↔
      mask.toNat.testBit p = true ∨
        c = true ∧ ∃ i < size, p = size - 1 - i ∧ t = some (low + i) := by
  cases c with
  | false => simp
  | true =>
    cases t with
    | none => simp
    | some o =>
      by_cases ho : low ≤ o ∧ o < low + size
      · have hlt : o - low < size := by omega
        have hplace : p = size - 1 - (o - low) ↔ ∃ i < size, p = size - 1 - i ∧ o = low + i := by
          constructor
          · intro hp
            exact ⟨o - low, hlt, hp, by omega⟩
          · rintro ⟨i, -, hp, rfl⟩
            rw [hp, Nat.add_sub_cancel_left]
        simp [ho, testBit_bit hlt hsize, hplace]
      · have hnone : ¬∃ i < size, p = size - 1 - i ∧ o = low + i := by
          rintro ⟨i, hi, -, rfl⟩
          omega
        simp [ho, hnone]

/-- A mask made step by step has the bits that its steps contribute. -/
theorem testBit_fold {n p : Nat} {f : Nat → UInt32 → UInt32} {contributes : Nat → Prop}
    (h : ∀ j < n, ∀ mask, (f j mask).toNat.testBit p = true ↔
      mask.toNat.testBit p = true ∨ contributes j) :
    (Nat.fold n (fun j _ mask => f j mask) 0).toNat.testBit p = true ↔
      ∃ j < n, contributes j := by
  induction n with
  | zero => simp
  | succ n ih =>
    rw [Nat.fold_succ, h n (Nat.lt_succ_self n), ih fun j hj => h j (Nat.lt_succ_of_lt hj)]
    constructor
    · rintro (⟨j, hj, hc⟩ | hc)
      · exact ⟨j, Nat.lt_succ_of_lt hj, hc⟩
      · exact ⟨n, Nat.lt_succ_self n, hc⟩
    · rintro ⟨j, hj, hc⟩
      rcases Nat.lt_succ_iff_lt_or_eq.1 hj with hj | rfl
      · exact .inl ⟨j, hj, hc⟩
      · exact .inr hc

theorem testBit_ofSlice_iff {target : Nat → Option Nat} {start width low size value p : Nat}
    (hsize : size ≤ 32) : (ofSlice target start width low size value).toNat.testBit p = true ↔
      ∃ j < width, value.testBit (width - 1 - j) = true ∧
        ∃ i < size, p = size - 1 - i ∧ target (start + j) = some (low + i) :=
  testBit_fold fun _ _ mask => testBit_contribute mask hsize

/-- A bit of a mask is set exactly if a set bit of the slice goes there. -/
theorem testBit_ofSlice {target : Nat → Option Nat} {start width low size value i : Nat}
    (hi : i < size) (hsize : size ≤ 32) :
    (ofSlice target start width low size value).toNat.testBit (size - 1 - i) = true ↔
      ∃ j < width, value.testBit (width - 1 - j) = true ∧ target (start + j) = some (low + i) := by
  rw [testBit_ofSlice_iff hsize]
  constructor
  · rintro ⟨j, hj, hset, i', hi', hplace, ht⟩
    obtain rfl : i' = i := by omega
    exact ⟨j, hj, hset, ht⟩
  · rintro ⟨j, hj, hset, ht⟩
    exact ⟨j, hj, hset, i, hi, rfl, ht⟩

/-- A mask has no bits beyond those that are kept. -/
theorem ofSlice_lt {target : Nat → Option Nat} {start width low size value : Nat}
    (hsize : size ≤ 32) : (ofSlice target start width low size value).toNat < 2 ^ size := by
  apply Nat.lt_pow_two_of_testBit
  intro p hp
  rw [Bool.eq_false_iff]
  intro hset
  obtain ⟨j, -, -, i, hi, hplace, -⟩ := (testBit_ofSlice_iff hsize).1 hset
  omega

/-! ## Unions -/

theorem testBit_foldl_or {n : Nat} (g : Fin n → UInt32) (start : UInt32) (i : Nat) :
    (Fin.foldl n (fun mask k => mask ||| g k) start).toNat.testBit i = true ↔
      start.toNat.testBit i = true ∨ ∃ k, (g k).toNat.testBit i = true := by
  induction n generalizing start with
  | zero => simp
  | succ n ih =>
    rw [Fin.foldl_succ, ih, Fin.exists_fin_succ, UInt32.toNat_or, Nat.testBit_or, Bool.or_eq_true,
      or_assoc]

theorem testBit_union {slices values : Nat} (t : MaskTable slices values) (f : Fin slices → Nat)
    (i : Nat) : (union t f).toNat.testBit i = true ↔
      ∃ k, (entry t k (f k)).toNat.testBit i = true := by
  have hzero : (0 : UInt32).toNat.testBit i = false := Nat.zero_testBit i
  rw [union, testBit_foldl_or, hzero]
  simp

theorem union_lt {slices values size : Nat} {t : MaskTable slices values} {f : Fin slices → Nat}
    (h : ∀ k, (entry t k (f k)).toNat < 2 ^ size) : (union t f).toNat < 2 ^ size := by
  apply Nat.lt_pow_two_of_testBit
  intro i hi
  rw [Bool.eq_false_iff]
  intro hbit
  obtain ⟨k, hk⟩ := (testBit_union t f i).1 hbit
  have hsmall := Nat.testBit_lt_two_pow
    (Nat.lt_of_lt_of_le (h k) (Nat.pow_le_pow_right (by decide) hi))
  rw [hsmall] at hk
  cases hk

theorem entry_table {target : Nat → Option Nat} {slices stride width low size value : Nat}
    (k : Fin slices) (hvalue : value < 2 ^ width) :
    entry (table target slices stride width low size) k value =
      ofSlice target (stride * k) width low size value := by
  have hvalue' : value < 1 <<< width := by
    rw [Nat.one_shiftLeft]
    exact hvalue
  simp [entry, table, hvalue']

end Mask

/-! ## Permutations -/

namespace Standard

open Bits

/-- Whether a function takes every bit to the place at which a table names it. -/
def Routes (target : Nat → Option Nat) (table : List Nat) : Prop :=
  ∀ p o, target p = some o ↔ table[o]? = some (p + 1)

/-- Values that are the slices of `width` bits, one at every `stride` bits. -/
structure Slices {slices : Nat} (f : Fin slices → Nat) (stride width : Nat) (b : Bits) : Prop where
  lt : ∀ k, f k < 2 ^ width
  testBit : ∀ (k : Fin slices) (i : Nat), i < width →
    (f k).testBit (width - 1 - i) = b.getD (stride * k + i) false

/-- The bit that a permutation takes somewhere is the one that its table names there. -/
theorem routes_target {table : List Nat} (hnodup : table.Nodup) :
    Routes (target table) table := by
  intro p o
  rw [target, List.findIdx?_eq_some_iff_getElem]
  constructor
  · rintro ⟨ho, hp, -⟩
    rw [List.getElem?_eq_getElem ho, eq_of_beq hp]
  · intro hp
    obtain ⟨ho, hp⟩ := List.getElem?_eq_some_iff.1 hp
    refine ⟨ho, beq_iff_eq.2 hp, ?_⟩
    -- an earlier place that names the bit would be the same place
    intro j hj hq
    have hjo := (List.Nodup.getElem_inj_iff hnodup).1 ((eq_of_beq hq).trans hp.symm)
    omega

/-- Whether a table names bits of slices only. -/
def Within (table : List Nat) (slices stride width : Nat) : Prop :=
  ∀ p ∈ table, 0 < p ∧ (p - 1) / stride < slices ∧ (p - 1) % stride < width

instance (table : List Nat) (slices stride width : Nat) :
    Decidable (Within table slices stride width) :=
  inferInstanceAs (Decidable (∀ p ∈ table, _))

/-- A union of masks is a selection of bits. -/
theorem Routes.ofNat_union {target : Nat → Option Nat} {table : List Nat}
    {slices stride width low size : Nat} {f : Fin slices → Nat} {b : Bits}
    (hr : Routes target table) (hin : Within table slices stride width)
    (hf : Slices f stride width b) (hsize : size ≤ 32)
    (hlength : low + size ≤ table.length) :
    ofNat size (Mask.union (Mask.table target slices stride width low size) f).toNat =
      ((select table b).drop low).take size := by
  have hlen : (((select table b).drop low).take size).length = size := by
    rw [List.length_take, List.length_drop, length_select]
    omega
  refine (ofNat_eq_iff hlen).2 fun j hj => ?_
  have hplace : low + j < table.length := by omega
  have hnamed : table[low + j]? = some table[low + j] := List.getElem?_eq_getElem hplace
  obtain ⟨hpos, hslice, hbit⟩ := hin table[low + j] (List.getElem_mem hplace)
  rw [getD_take_drop hj, getD_select hnamed, Bool.eq_iff_iff, Mask.testBit_union]
  simp only [Mask.entry_table _ (hf.lt _), Mask.testBit_ofSlice hj hsize, hr _ _, hnamed,
    Option.some.injEq]
  constructor
  · rintro ⟨k, i, hi, hset, hp⟩
    rw [hp, Nat.add_sub_cancel, ← hf.testBit k i hi]
    exact hset
  · intro hset
    have hdiv := Nat.div_add_mod (table[low + j] - 1) stride
    refine ⟨⟨(table[low + j] - 1) / stride, hslice⟩, (table[low + j] - 1) % stride, hbit, ?_, ?_⟩
    · rw [hf.testBit _ _ hbit, hdiv]
      exact hset
    · rw [hdiv]
      omega

/-- Two unions of masks are the halves of a selection of bits. -/
theorem Routes.ofNat_unions {target : Nat → Option Nat} {table : List Nat}
    {slices stride width size : Nat} {f : Fin slices → Nat} {b : Bits}
    (hr : Routes target table) (hin : Within table slices stride width)
    (hf : Slices f stride width b) (hsize : size ≤ 32) (hlength : table.length = size + size) :
    ofNat size (Mask.union (Mask.table target slices stride width 0 size) f).toNat ++
        ofNat size (Mask.union (Mask.table target slices stride width size size) f).toNat =
      select table b := by
  have hrest : ((select table b).drop size).length ≤ size := by
    rw [List.length_drop, length_select]
    omega
  rw [hr.ofNat_union hin hf hsize (by omega), hr.ofNat_union hin hf hsize (by omega),
    List.drop_zero, List.take_of_length_le hrest, List.take_append_drop]

end Standard

end Des

end PassHash
