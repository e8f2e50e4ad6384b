import PassHash.Proofs.Kdf.Scrypt.Octets
import PassHash.Proofs.Kdf.Yescrypt.Basic

/-!
# The Classic Mode is Scrypt

A state whose blocks are in diagonal order stands for a string of octets. Every operation on states
is an operation of scrypt on these strings, and so is a run of them: a lane is mixed through its
table as scrypt mixes a string, although its words are never put back in order on the way.

## Main statements

- `Yescrypt.Stands.mix`, `Yescrypt.Stands.xor`, `Yescrypt.Stands.iterate`: the steps, and runs of
  them
- `Yescrypt.Stands.integerify_mod`: the place that is read next
- `Yescrypt.Stands.mixAlone`: one lane
- `Yescrypt.derive_classic_eq_ok_iff`: the derived key
-/

namespace PassHash

namespace Yescrypt

open Salsa20 BlockMix Scrypt

/-! ## Blocks in diagonal order -/

/-- The octets that a block in diagonal order stands for. -/
def octets (b : Block) : Bytes := (undiagonal b).toBytes

theorem length_octets (b : Block) : (octets b).length = 64 := Block.length_toBytes _

theorem undiagonal_add (a b : Block) :
    undiagonal (a.add b) = (undiagonal a).add (undiagonal b) := by
  apply Vector.ext
  intro i hi
  simp [undiagonal, Block.add]

theorem undiagonal_xor (a b : Block) :
    undiagonal (a.xor b) = (undiagonal a).xor (undiagonal b) := by
  apply Vector.ext
  intro i hi
  simp [undiagonal, Block.xor]

theorem salsa_octets (b : Block) : Standard.salsa (octets b) = octets (core 4 b) := by
  rw [octets, Standard.salsa_toBytes, octets, core, undiagonal_add, undiagonal_diagonal,
    Salsa20.core]

theorem xor_octets (a b : Block) : Standard.xor (octets a) (octets b) = octets (a.xor b) := by
  rw [octets, octets, Standard.xor_toBytes, octets, undiagonal_xor]

/-! ## States -/

variable {r : Nat} {u v : Chunk} {s t : Bytes}

/-- Whether a state of `2 * r` blocks stands for a string of octets. -/
structure Stands (r : Nat) (u : Chunk) (s : Bytes) : Prop where
  length : u.length = 2 * r
  octets : u.flatMap octets = s

namespace Stands

theorem piece (h : Stands r u s) {k : Nat} (hk : k < u.length) :
    Standard.piece 64 k s = Yescrypt.octets u[k] := by
  rw [← h.octets]
  exact Pieces.take_drop_flatMap length_octets u hk

theorem piece_last (h : Stands r u s) (hr : 0 < r) :
    Standard.piece 64 (2 * r - 1) s = Yescrypt.octets (last u) := by
  have hk : 2 * r - 1 < u.length := by
    rw [h.length]
    omega
  have hlast : last u = u[2 * r - 1] := by
    rw [last, List.getLastD_eq_getLast?, List.getLast?_eq_getElem?, h.length,
      List.getElem?_eq_getElem hk, Option.getD_some]
  rw [h.piece hk, hlast]

theorem xor (h : Stands r u s) (h' : Stands r v t) :
    Stands r (BlockMix.xor u v) (Standard.xor s t) where
  length := by
    rw [BlockMix.xor, List.length_zipWith, h.length, h'.length, Nat.min_self]
  octets := by
    have hop : ∀ a b : Block, List.zipWith (· ^^^ ·) (Yescrypt.octets a) (Yescrypt.octets b) =
        Yescrypt.octets (a.xor b) := xor_octets
    rw [BlockMix.xor, ← h.octets, ← h'.octets, Standard.xor,
      Pieces.zipWith_flatMap length_octets hop (h.length.trans h'.length.symm)]

/-! ## Mixing -/

/-- The outputs for the first blocks of a state. -/
theorem foldl_take (h : Stands r u s) (hr : 0 < r) {k : Nat} (hk : k ≤ 2 * r) :
    ∃ x ys, (u.take k).foldl (fun (x, ys) b =>
        let y := core 4 (Block.xor x b)
        (y, ys.push y)) (last u, #[]) = (x, ys) ∧
      Yescrypt.octets x = Standard.chain r s k ∧
      ys.toList.map Yescrypt.octets = (List.range k).map fun i => Standard.chain r s (i + 1) := by
  -- over the blocks mixed so far, with the output that is carried along
  induction k with
  | zero => exact ⟨last u, #[], rfl, (h.piece_last hr).symm, rfl⟩
  | succ k ih =>
    obtain ⟨x, ys, hfold, hx, hys⟩ := ih (by omega)
    have hk' : k < u.length := by
      rw [h.length]
      omega
    have hstep : Yescrypt.octets (core 4 (x.xor u[k])) = Standard.chain r s (k + 1) := by
      rw [Standard.chain, ← salsa_octets, ← xor_octets, hx, h.piece hk']
    refine ⟨core 4 (x.xor u[k]), ys.push (core 4 (x.xor u[k])), ?_, hstep, ?_⟩
    · rw [List.take_succ_eq_append_getElem hk', List.foldl_append, hfold]
      rfl
    · rw [Array.toList_push, List.map_append, hys, List.range_succ, List.map_append,
        List.map_singleton, hstep, List.map_singleton]

theorem octets_place (h : Stands r u s) (hr : 0 < r) {i : Nat} (hi : i < 2 * r) :
    Yescrypt.octets (place (outputs (core 4) u) i) = Standard.chain r s (i + 1) := by
  -- all blocks are mixed
  obtain ⟨x, ys, hfold, -, hys⟩ := h.foldl_take hr (Nat.le_refl (2 * r))
  rw [List.take_of_length_le (Nat.le_of_eq h.length)] at hfold
  have hsize : ys.size = 2 * r := by
    simpa using congrArg List.length hys
  have hi' : i < ys.size := by omega
  have hys := congrArg (·[i]?) hys
  simp only [List.getElem?_map, List.getElem?_range hi, Option.map_some, Array.getElem?_toList,
    Array.getElem?_eq_getElem hi', Option.some.injEq] at hys
  rw [outputs, hfold, place, ← hys]
  simp [hi']

theorem mix (h : Stands r u s) (hr : 0 < r) :
    Stands r (BlockMix.mix (core 4) u) (Standard.blockMix r s) where
  length := by rw [length_mix, h.length]
  octets := by
    have heven : (2 * r + 1) / 2 = r := by omega
    have hodd : 2 * r / 2 = r := by omega
    rw [BlockMix.mix, evensThenOdds, size_outputs, h.length, heven, hodd, List.flatMap_append,
      List.flatMap_map, List.flatMap_map, Standard.blockMix]
    refine congrArg₂ (· ++ ·) ?_ ?_
    · refine List.flatMap_congr fun i hi => ?_
      have hi := List.mem_range.1 hi
      exact h.octets_place hr (by omega)
    · refine List.flatMap_congr fun i hi => ?_
      have hi := List.mem_range.1 hi
      exact h.octets_place hr (by omega)

/-- What holds for one step holds for a run of steps. -/
theorem iterate {f : Chunk → Chunk} {g : Bytes → Bytes}
    (hstep : ∀ {u s}, Stands r u s → Stands r (f u) (g s)) (n : Nat) (h : Stands r u s) :
    Stands r (f^[n] u) (g^[n] s) := by
  induction n with
  | zero => exact h
  | succ n ih =>
    rw [Function.iterate_succ_apply', Function.iterate_succ_apply']
    exact hstep ih

/-- The state decides the same place in a table of a power of two states. -/
theorem integerify_mod (h : Stands r u s) (hr : 0 < r) {k : Nat} (hk : k ≤ 64)
    (sbox? : Option SBox) :
    Standard.integerify r s % 2 ^ k = Lane.integerify ⟨u, sbox?⟩ % 2 ^ k := by
  -- what the words after the second add is a multiple of the size of the table
  have hpow : (2 : Nat) ^ 64 = 2 ^ k * 2 ^ (64 - k) := by
    rw [← Nat.pow_add, Nat.add_sub_cancel' hk]
  obtain ⟨rest, hwords⟩ : ∃ rest, (undiagonal (last u)).toList =
      (last u).get 0 :: (last u).get 13 :: rest := by
    exact ⟨_, rfl⟩
  have hplace : Lane.integerify ⟨u, sbox?⟩ =
      ((last u).get 0).toNat + (((last u).get 13).toNat <<< 32) := rfl
  rw [Standard.integerify, h.piece_last hr, Yescrypt.octets, Block.toBytes, hwords,
    Standard.littleEndian_words, hpow, Nat.mul_assoc, Nat.add_mul_mod_self_left, hplace]

end Stands

/-! ## Lanes -/

/-- The table of a lane without an S-box holds its successive states. -/
theorem fill_classic (n : Nat) (u : Chunk) :
    Lane.fill false n #[] ⟨u, none⟩ =
      (((List.range n).map fun i => (BlockMix.mix (core 4))^[i] u).toArray,
        ⟨(BlockMix.mix (core 4))^[n] u, none⟩) := by
  induction n with
  | zero => rfl
  | succ n ih =>
    rw [Lane.fill] at ih ⊢
    rw [Nat.fold_succ, ih]
    simp [Lane.mix, List.range_succ, Function.iterate_succ_apply']

/-- Reading a table without writing leaves the table, and each read is one step of the state. -/
theorem lookUp_classic (n count : Nat) (table : Array Chunk) (u : Chunk) :
    Lane.lookUp false 0 n count table ⟨u, none⟩ =
      (table, ⟨(fun u => BlockMix.mix (core 4)
        (BlockMix.xor u (table.getD (Lane.integerify ⟨u, none⟩ % n) [])))^[count] u, none⟩) := by
  induction count with
  | zero => rfl
  | succ count ih =>
    rw [Lane.lookUp] at ih ⊢
    rw [Nat.fold_succ, ih]
    simp [Lane.mix, Lane.add, Function.iterate_succ_apply']

theorem whole_ofSizes_classic {k : Nat} (hk : 0 < k) :
    (LoopCounts.ofSizes false (2 ^ k) 1 0).whole = 2 ^ k := by
  have heven : 2 ^ k = 2 ^ (k - 1) * 2 := by
    rw [← Nat.pow_succ, Nat.succ_eq_add_one, Nat.sub_add_cancel hk]
  simp only [LoopCounts.ofSizes, LoopCounts.reads, evenCeil, Nat.div_one, Bool.false_eq_true,
    if_false]
  omega

/-- A lane is mixed through its table as scrypt mixes the string that it stands for. -/
theorem Stands.mixAlone (h : Stands r u s) (hr : 0 < r) {k : Nat} (hk : 0 < k) (hk' : k ≤ 64) :
    (Yescrypt.mixAlone (2 ^ k) 0 ⟨u, none⟩).toBytes = Standard.roMix r (2 ^ k) s := by
  have hstate : ∀ i, Stands r ((BlockMix.mix (core 4))^[i] u) (Standard.tableState r s i) :=
    fun i => iterate (fun h => h.mix hr) i h
  -- wherever the table is read, it holds the state of that number
  have hread : ∀ j < 2 ^ k, (((List.range (2 ^ k)).map fun i =>
      (BlockMix.mix (core 4))^[i] u).toArray).getD j [] = (BlockMix.mix (core 4))^[j] u := by
    intro j hj
    simp [hj]
  simp only [Yescrypt.mixAlone, fill_classic, lookUp_classic, whole_ofSizes_classic hk]
  refine Stands.octets (iterate (fun {v t} h => ?_) (2 ^ k) (hstate (2 ^ k)))
  have hplace : Lane.integerify ⟨v, none⟩ % 2 ^ k < 2 ^ k := Nat.mod_lt _ (Nat.two_pow_pos k)
  rw [hread _ hplace, ← h.integerify_mod hr hk' none]
  exact (h.xor (hstate _)).mix hr

/-! ## Derivation -/

theorem length_readList (n : Nat) (read : List Block) (b : Bytes) :
    (Block.readList n read b).length = read.length + n := by
  induction n generalizing read b with
  | zero => simp [Block.readList]
  | succ n ih =>
    rw [Block.readList, ih, List.length_cons]
    omega

theorem flatMap_toBytes_readList {n : Nat} {b : Bytes} (h : 64 * n ≤ b.length) (read : List Block) :
    (Block.readList n read b).flatMap Block.toBytes =
      read.reverse.flatMap Block.toBytes ++ b.take (64 * n) := by
  induction n generalizing read b with
  | zero => simp [Block.readList]
  | succ n ih =>
    have hrest : 64 * n ≤ (b.drop 64).length := by
      rw [List.length_drop]
      omega
    have hsplit : b.take (64 * (n + 1)) = b.take 64 ++ (b.drop 64).take (64 * n) := by
      rw [← List.take_add, Nat.mul_succ, Nat.add_comm]
    rw [Block.readList, ih hrest, List.reverse_cons, List.flatMap_append, List.flatMap_singleton,
      Block.toBytes_ofBytes (by omega), List.append_assoc, hsplit]

/-- A lane stands for the string that it was read from. -/
theorem Stands.ofBytes {b : Bytes} (h : 128 * r ≤ b.length) :
    Stands r (Lane.ofBytes r b).blocks (b.take (128 * r)) where
  length := by
    rw [Lane.ofBytes, List.length_map, Block.listOfBytes, length_readList, List.length_nil,
      Nat.zero_add]
  octets := by
    have hsize : 64 * (2 * r) = 128 * r := by omega
    have horder : ∀ x : Block, Yescrypt.octets (diagonal x) = x.toBytes := fun x => by
      rw [Yescrypt.octets, undiagonal_diagonal]
    rw [Lane.ofBytes, List.flatMap_map, Block.listOfBytes]
    simp only [horder]
    rw [flatMap_toBytes_readList (by omega), hsize]
    rfl

theorem lanes_eq_map (r p : Nat) (b : Bytes) :
    lanes r p b = (List.range p).map fun i => Lane.ofBytes r (b.drop (128 * r * i)) := by
  induction p generalizing b with
  | zero => rfl
  | succ p ih =>
    rw [lanes, ih, List.range_succ_eq_map, List.map_cons, List.map_map, Nat.mul_zero,
      List.drop_zero]
    refine congrArg _ (List.map_congr_left fun i _ => ?_)
    rw [List.drop_drop, Function.comp_apply, Nat.mul_succ, Nat.add_comm]

theorem pbkdf2_eq (password salt : Bytes) (len : Nat) :
    Standard.pbkdf2 password salt 1 len = Pbkdf2.derive Sha256.hash password salt len :=
  rfl

/-- The classic mode derives its key in one step. -/
theorem derivedKey_classic (password salt : Bytes) (n r p : Nat) :
    derivedKey password salt ⟨.classic, n, r, p, 0, 0, 0⟩ =
      Pbkdf2.derive Sha256.hash password
        (((lanes r p (Pbkdf2.derive Sha256.hash password salt (128 * r * p))).map
          (mixAlone n 0)).flatMap Lane.toBytes) 32 :=
  rfl

theorem derivedKey_classic_eq_scrypt (password salt : Bytes) {k r p : Nat} (hk : 0 < k)
    (hk' : k ≤ 64) (hr : 0 < r) :
    derivedKey password salt ⟨.classic, 2 ^ k, r, p, 0, 0, 0⟩ =
      Standard.scrypt password salt (2 ^ k) r p 32 := by
  have hsize : p * 128 * r = 128 * r * p := by rw [Nat.mul_comm p 128, Nat.mul_right_comm]
  rw [derivedKey_classic, Standard.scrypt, pbkdf2_eq, pbkdf2_eq, hsize, lanes_eq_map, List.map_map,
    List.flatMap_map]
  refine congrArg (Pbkdf2.derive Sha256.hash password · 32) (List.flatMap_congr fun i hi => ?_)
  -- the lane does not end beyond the string that all lanes are read from
  have hfits : 128 * r * (i + 1) ≤ 128 * r * p := Nat.mul_le_mul_left _ (List.mem_range.1 hi)
  rw [Nat.mul_succ] at hfits
  refine (Stands.ofBytes ?_).mixAlone hr hk hk'
  rw [List.length_drop, Pbkdf2.length_derive _ (by decide)]
  omega

/-- Within its limits the classic mode derives the key that scrypt derives, and beyond them it
    derives none. -/
theorem derive_classic_eq_ok_iff {password salt key : Bytes} {n r p : Nat} :
    derive password salt ⟨.classic, n, r, p, 0, 0, 0⟩ = .ok key ↔
      ((∃ k, 0 < k ∧ n = 2 ^ k) ∧ 0 < r ∧ 0 < p ∧ 128 * r * n ≤ Params.maxMemory ∧
        128 * r * p ≤ Params.maxMemory) ∧ Standard.scrypt password salt n r p 32 = key := by
  rw [derive_eq_ok_iff, checked_classic_iff]
  refine and_congr_right ?_
  rintro ⟨⟨k, hk, rfl⟩, hr, -, htable, -⟩
  -- a table that fits the memory has fewer states than two words can tell apart
  have hk' : k ≤ 64 := by
    have hle : 2 ^ k ≤ Params.maxMemory :=
      Nat.le_trans (Nat.le_mul_of_pos_left _ (by omega)) htable
    have hlt : 2 ^ k < 2 ^ 65 := Nat.lt_of_le_of_lt hle (by decide)
    exact Nat.le_of_lt_succ ((Nat.pow_lt_pow_iff_right (by decide)).1 hlt)
  rw [derivedKey_classic_eq_scrypt password salt hk hk' hr]

end Yescrypt

end PassHash
