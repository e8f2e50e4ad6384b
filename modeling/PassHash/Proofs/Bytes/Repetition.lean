import Mathlib.Data.List.Basic
import PassHash.Bytes

/-!
# Repeated Blocks

A block that is repeated end to end has at every place the byte that the block has at the same place
counted around. What is cut off such a repetition depends on the bytes ahead of the cut alone.

## Contents

- `Bytes.repeated`: a byte of a block repeated without end

## Main statements

- `Bytes.recycle_eq_map`: a block repeated up to a length, byte by byte
- `Bytes.repeated_take_append`: a block cut behind its first bytes has the same ones
-/

namespace PassHash

namespace Bytes

/-- Byte `i` of a block that is repeated without end. -/
def repeated (block : Bytes) (i : Nat) : UInt8 := block.getD (i % block.length) 0

theorem repeated_of_lt {block : Bytes} {i : Nat} (h : i < block.length) :
    repeated block i = block[i] := by
  rw [repeated, Nat.mod_eq_of_lt h]
  exact (List.getElem_eq_getD 0).symm

theorem repeated_length_add (block : Bytes) (i : Nat) :
    repeated block (block.length + i) = repeated block i := by
  rw [repeated, repeated, Nat.add_mod_left]

theorem map_repeated_of_le {block : Bytes} {n : Nat} (h : n ≤ block.length) :
    (List.range n).map (repeated block) = block.take n := by
  apply List.ext_getElem
  · simp [h]
  · intro i hi hi'
    have hlt : i < block.length := by
      rw [List.length_map, List.length_range] at hi
      omega
    rw [List.getElem_map, List.getElem_range, repeated_of_lt hlt, List.getElem_take]

/-- A block repeated up to a length has the bytes of the block repeated without end. -/
theorem recycle_eq_map {block : Bytes} (h : 0 < block.length) (len : Nat) :
    recycle block len = (List.range len).map (repeated block) := by
  fun_induction recycle block len with
  | case1 len hs => rw [map_repeated_of_le (by omega)]
  | case2 len hs ih =>
    -- one whole block, and then the repetition from its start
    have hlen : len = block.length + (len - block.length) := by omega
    have hrest : ((List.range (len - block.length)).map (block.length + ·)).map (repeated block) =
        (List.range (len - block.length)).map (repeated block) := by
      rw [List.map_map]
      exact List.map_congr_left fun i _ => repeated_length_add block i
    conv => rhs; rw [hlen, List.range_add, List.map_append, hrest]
    rw [ih, map_repeated_of_le (Nat.le_refl _), List.take_length]

/-- A block that is cut behind its first bytes has the same first bytes, whatever follows it. -/
theorem repeated_take_append {block rest rest' : Bytes} {n i : Nat} (hn : n ≤ block.length)
    (hi : i < n) : repeated (block.take n ++ rest') i = repeated (block ++ rest) i := by
  have hcut : i < (block.take n).length := by
    rw [List.length_take]
    omega
  have hlt : i < block.length := by omega
  rw [repeated_of_lt (by rw [List.length_append]; omega),
    repeated_of_lt (by rw [List.length_append]; omega), List.getElem_append_left hcut,
    List.getElem_append_left hlt, List.getElem_take]

end Bytes

end PassHash
