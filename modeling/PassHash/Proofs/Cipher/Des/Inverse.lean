import Mathlib.Logic.Function.Iterate
import PassHash.Proofs.Cipher.Des.Schedule

/-!
# Decryption and Repeated Encryption

The rounds are a Feistel network. A round keeps one half of its block, so the same round takes back
what it did as soon as the halves are exchanged, whatever the round function computes; hence sixteen
rounds are taken back by sixteen rounds with the round keys in the opposite order. The permutations
before and after the rounds are inverse to each other. They cancel between a block that was just
encrypted and the next encryption of it, so passes can be counted in one go or made one by one.

## Contents

- `Direction.opposite`: the direction that takes a direction back
- `Context.rounds`: rounds with the round keys in any order
- `Context.cryptBytes`: the cipher on the bytes of a block

## Main statements

- `Block.permute_initialMasks_finalMasks`, `Block.permute_finalMasks_initialMasks`: the two
  permutations cancel
- `Context.round_swap_round`, `Context.rounds_swap_rounds`: one round and any rounds are taken back
- `Context.cryptBytes_add`, `Context.cryptBytes_eq_iterate`: the same block, encrypted several times
- `Context.decrypt_encrypt`: decryption takes back encryption, and the other way around
-/

namespace PassHash

namespace Des

open Standard Bits

/-! ## Permutations that cancel -/

namespace Standard

namespace Bits

/-- A choice of bits that takes back another one: at every place it names the place at which the
    other one names this place. -/
theorem select_select {s t : List Nat} {b : Bits} (hlength : s.length = b.length)
    (h : ∀ j < b.length, (s[j]?.bind fun p => t[p - 1]?) = some (j + 1)) :
    select s (select t b) = b := by
  apply List.ext_getElem
  · rw [length_select, hlength]
  · intro j hj hj'
    obtain ⟨p, hp, hq⟩ := Option.bind_eq_some_iff.1 (h j hj')
    calc (select s (select t b))[j]
        = (select s (select t b)).getD j false := (List.getD_eq_getElem _ _ hj).symm
      _ = (select t b).getD (p - 1) false := getD_select hp
      _ = b.getD j false := getD_select hq
      _ = b[j] := List.getD_eq_getElem _ _ hj'

theorem select_finalPermutation_initialPermutation {b : Bits} (hb : b.length = 64) :
    select finalPermutation (select initialPermutation b) = b := by
  apply select_select
  · exact hb.symm
  · rw [hb]
    decide

theorem select_initialPermutation_finalPermutation {b : Bits} (hb : b.length = 64) :
    select initialPermutation (select finalPermutation b) = b := by
  apply select_select
  · exact hb.symm
  · rw [hb]
    decide

end Bits

end Standard

namespace Block

@[simp] theorem length_bits (b : Block) : b.bits.length = 64 := by
  simp [bits]

/-- A block is known by its bits. -/
theorem bits_injective : Function.Injective bits := by
  have hword : ∀ w w' : UInt32, ofNat 32 w.toNat = ofNat 32 w'.toNat → w = w' := by
    intro w w' h
    have htoNat := congrArg Bits.toNat h
    rw [toNat_ofNat, toNat_ofNat, Nat.mod_eq_of_lt w.toNat_lt, Nat.mod_eq_of_lt w'.toNat_lt]
      at htoNat
    exact UInt32.toNat_inj.1 htoNat
  rintro ⟨l, r⟩ ⟨l', r'⟩ h
  obtain ⟨hl, hr⟩ := List.append_inj h (by simp)
  rw [hword l l' hl, hword r r' hr]

@[simp] theorem permute_initialMasks_finalMasks (b : Block) :
    (b.permute initialMasks).permute finalMasks = b := by
  apply bits_injective
  rw [bits_permute_finalMasks, bits_permute_initialMasks,
    select_finalPermutation_initialPermutation b.length_bits]

@[simp] theorem permute_finalMasks_initialMasks (b : Block) :
    (b.permute finalMasks).permute initialMasks = b := by
  apply bits_injective
  rw [bits_permute_initialMasks, bits_permute_finalMasks,
    select_initialPermutation_finalPermutation b.length_bits]

@[simp] theorem swap_swap (b : Block) : b.swap.swap = b := rfl

/-- The block that the bytes of a block are read as. -/
@[simp] theorem ofBytes_toBytes_self (b : Block) : ofBytes b.toBytes = b := by
  have hword : ∀ w : UInt32, Word.ofBytes32 (w >>> 24).toUInt8 (w >>> 16).toUInt8 (w >>> 8).toUInt8
      w.toUInt8 = w := Word.ofBytes32_bytesLE32
  simp [ofBytes, toBytes, Word.bytesBE32, Word.wordsBE32, hword]

end Block

/-! ## Directions -/

namespace Direction

/-- The direction that takes a direction back. -/
def opposite : Direction → Direction
  | encrypt => decrypt
  | decrypt => encrypt

/-- The order in which a direction applies the round keys. -/
def keys (direction : Direction) : List (Fin 16) := (List.finRange 16).map direction.key

/-- The opposite direction applies the round keys in the opposite order. -/
theorem keys_opposite (direction : Direction) :
    direction.opposite.keys = direction.keys.reverse := by
  cases direction <;> decide

end Direction

/-! ## Rounds taken back -/

namespace Context

variable (ctx : Context) (direction : Direction)

/-- A round is taken back by itself on the exchanged halves: the half that the round function looks
    at is still there. -/
theorem round_swap_round (i : Fin 16) (b : Block) :
    ctx.round i (ctx.round i b).swap = b.swap := by
  have hround : ∀ l r, ctx.round i ⟨l, r⟩ = ⟨r, ctx.roundFunction i r ^^^ l⟩ := fun _ _ => rfl
  obtain ⟨l, r⟩ := b
  rw [hround, Block.swap, hround, ← UInt32.xor_assoc, UInt32.xor_self, UInt32.zero_xor, Block.swap]

/-- Rounds with some round keys, in their order. -/
def rounds (keys : List (Fin 16)) (b : Block) : Block := keys.foldl (fun b i => ctx.round i b) b

/-- Rounds are taken back by the rounds with the same round keys from the last to the first. -/
theorem rounds_swap_rounds (keys : List (Fin 16)) (b : Block) :
    ctx.rounds keys.reverse (ctx.rounds keys b).swap = b.swap := by
  induction keys generalizing b with
  | nil => rfl
  | cons i keys ih =>
    -- the first round is the last one to be taken back
    calc ctx.rounds (i :: keys).reverse (ctx.rounds (i :: keys) b).swap
        = ctx.round i (ctx.rounds keys.reverse (ctx.rounds keys (ctx.round i b)).swap) := by
          simp [rounds]
      _ = ctx.round i (ctx.round i b).swap := by rw [ih]
      _ = b.swap := ctx.round_swap_round i b

theorem pass_eq_rounds (b : Block) : ctx.pass direction b = (ctx.rounds direction.keys b).swap := by
  rw [pass, rounds, Direction.keys, List.foldl_map, Fin.foldl_eq_finRange_foldl]

/-- A pass is taken back by a pass in the opposite direction. -/
theorem leftInverse_pass :
    Function.LeftInverse (ctx.pass direction.opposite) (ctx.pass direction) := by
  intro b
  rw [pass_eq_rounds, pass_eq_rounds, Direction.keys_opposite, rounds_swap_rounds, Block.swap_swap]

/-! ## Passes -/

theorem passes_succ (n : Nat) :
    ctx.passes direction (n + 1) = ctx.passes direction n ∘ ctx.pass direction := rfl

theorem passes_eq_iterate (n : Nat) : ctx.passes direction n = (ctx.pass direction)^[n] := by
  induction n with
  | zero => rfl
  | succ n ih => rw [passes_succ, ih, Function.iterate_succ]

/-- Passes are taken back by as many passes in the opposite direction. -/
theorem passes_opposite_passes (n : Nat) (b : Block) :
    ctx.passes direction.opposite n (ctx.passes direction n b) = b := by
  rw [passes_eq_iterate, passes_eq_iterate]
  exact (ctx.leftInverse_pass direction).iterate n b

theorem crypt_opposite_crypt (count : Nat) (b : Block) :
    ctx.crypt direction.opposite count (ctx.crypt direction count b) = b := by
  simp only [crypt, Block.permute_finalMasks_initialMasks, passes_opposite_passes,
    Block.permute_initialMasks_finalMasks]

/-- Passes counted in one go are passes made in two goes: the permutations in between cancel. -/
theorem crypt_add {a b : Nat} (ha : 1 ≤ a) (hb : 1 ≤ b) (x : Block) :
    ctx.crypt direction (a + b) x = ctx.crypt direction b (ctx.crypt direction a x) := by
  have hsum : max (a + b) 1 = max b 1 + max a 1 := by omega
  simp only [crypt, Block.permute_finalMasks_initialMasks, hsum, passes_eq_iterate,
    Function.iterate_add_apply]

/-- A count of zero is taken for one. -/
theorem crypt_max_one (count : Nat) :
    ctx.crypt direction (max count 1) = ctx.crypt direction count := by
  funext b
  simp only [crypt, Nat.max_assoc, Nat.max_self]

/-! ## The cipher on bytes -/

/-- The eight bytes of a block, encrypted or decrypted `count` times in a row. -/
def cryptBytes (count : Nat) (block : Bytes) : Bytes :=
  (ctx.crypt direction count (.ofBytes block)).toBytes

theorem ofBytes_cryptBytes (count : Nat) (block : Bytes) :
    Block.ofBytes (ctx.cryptBytes direction count block) =
      ctx.crypt direction count (.ofBytes block) :=
  Block.ofBytes_toBytes_self _

theorem cryptBytes_opposite_cryptBytes (count : Nat) {block : Bytes} (hblock : block.length = 8) :
    ctx.cryptBytes direction.opposite count (ctx.cryptBytes direction count block) = block := by
  rw [cryptBytes, ofBytes_cryptBytes, crypt_opposite_crypt, Block.toBytes_ofBytes hblock]

theorem cryptBytes_add {a b : Nat} (ha : 1 ≤ a) (hb : 1 ≤ b) (block : Bytes) :
    ctx.cryptBytes direction (a + b) block =
      ctx.cryptBytes direction b (ctx.cryptBytes direction a block) := by
  rw [cryptBytes, crypt_add ctx direction ha hb, cryptBytes, ofBytes_cryptBytes]

/-- Encrypting a number of times in a row is encrypting a single block that number of times. -/
theorem cryptBytes_eq_iterate {count : Nat} (h : 1 ≤ count) (block : Bytes) :
    ctx.cryptBytes direction count block = (ctx.cryptBytes direction 1)^[count] block := by
  induction count, h using Nat.le_induction with
  | base => rw [Function.iterate_one]
  | succ n hn ih =>
    rw [cryptBytes_add ctx direction hn (Nat.le_refl 1), ih, Function.iterate_succ_apply']

/-- Whatever the round keys and the salt are, decryption takes back encryption with the same count,
    and encryption takes back decryption. -/
theorem decrypt_encrypt (count : Nat) {block : Bytes} (hblock : block.length = 8) :
    ctx.cryptBytes .decrypt count (ctx.cryptBytes .encrypt count block) = block ∧
      ctx.cryptBytes .encrypt count (ctx.cryptBytes .decrypt count block) = block :=
  ⟨ctx.cryptBytes_opposite_cryptBytes .encrypt count hblock,
    ctx.cryptBytes_opposite_cryptBytes .decrypt count hblock⟩

/-- A salted context and as many passes as a digest of two salt characters has. -/
theorem decrypt_encrypt_salted :
    let ctx := ofKey (.ofBytes [0x13, 0x34, 0x57, 0x79, 0x9b, 0xbc, 0xdf, 0xf1]) 0xabc
    let block : Bytes := [0x01, 0x23, 0x45, 0x67, 0x89, 0xab, 0xcd, 0xef]
    block.length = 8 ∧ ctx.cryptBytes .decrypt 25 (ctx.cryptBytes .encrypt 25 block) = block ∧
      ctx.cryptBytes .encrypt 25 (ctx.cryptBytes .decrypt 25 block) = block := by
  intro ctx block
  have hblock : block.length = 8 := rfl
  exact ⟨hblock, decrypt_encrypt ctx 25 hblock⟩

end Context

end Des

end PassHash
