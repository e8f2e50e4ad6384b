import PassHash.Proofs.Cipher.Des.Basic

/-!
# Plain DES and Stored Schedules

With salt zero the exchange of bits does nothing, and the cipher is plain DES under a schedule of
round keys. A context is stored as the words of its schedule, with the salt after them; reading it
back gives the context again. The key whose bits are all zero has a schedule of zeros, so a region
that holds only zeros holds a schedule too.

## Contents

- `Standard.plainCrypt`: plain DES under a schedule
- `Standard.storedWords`: the words of a schedule

## Main statements

- `Standard.crypt_zero`: the cipher with salt zero is plain DES
- `Standard.roundKey_replicate`: the schedule of the zero key
- `Context.ofBytes_toBytes`: a stored context is read back
- `Context.toBytes_ofKey`: what is stored for a key
-/

namespace PassHash

namespace Des

namespace Standard

/-! ## Bits of numbers -/

namespace Bits

theorem toNat_append_singleton (b : Bits) (x : Bool) :
    toNat (b ++ [x]) = 2 * toNat b + x.toNat := by
  simp [toNat]

theorem toNat_lt (b : Bits) : toNat b < 2 ^ b.length := by
  -- the last bit is the lowest, so the number grows at the end of the list
  induction b using List.reverseRecOn with
  | nil => decide
  | append_singleton b x ih =>
    have hx := x.toNat_le
    rw [toNat_append_singleton, List.length_append, List.length_singleton, Nat.pow_succ]
    omega

theorem ofNat_succ (n v : Nat) : ofNat (n + 1) v = ofNat n (v / 2) ++ [v.testBit 0] :=
  ofNat_add n 1 v

theorem toNat_ofNat (n v : Nat) : toNat (ofNat n v) = v % 2 ^ n := by
  induction n generalizing v with
  | zero => simp [ofNat, toNat, Nat.mod_one]
  | succ n ih =>
    rw [ofNat_succ, toNat_append_singleton, ih, Nat.toNat_testBit, Nat.pow_zero, Nat.div_one,
      Nat.pow_succ, Nat.mul_comm (2 ^ n), Nat.mod_mul, Nat.add_comm]

theorem ofNat_toNat (b : Bits) : ofNat b.length (toNat b) = b := by
  induction b using List.reverseRecOn with
  | nil => rfl
  | append_singleton b x ih =>
    have hx := x.toNat_le
    have hdiv : (2 * toNat b + x.toNat) / 2 = toNat b := by omega
    have hlow : (2 * toNat b + x.toNat).testBit 0 = x := by
      cases x <;> simp
    rw [List.length_append, List.length_singleton, ofNat_succ, toNat_append_singleton, hdiv, hlow,
      ih]

/-- Any choice among bits that are all clear. -/
theorem select_replicate (table : List Nat) (n : Nat) :
    select table (List.replicate n false) = List.replicate table.length false := by
  rw [List.eq_replicate_iff]
  refine ⟨length_select _ _, fun x hx => ?_⟩
  obtain ⟨i, -, rfl⟩ := List.mem_map.1 hx
  rw [List.getD_eq_getElem?_getD, List.getElem?_replicate]
  split <;> rfl

end Bits

open Bits

/-! ## Plain DES -/

/-- The round function without a salt. -/
def plainFunction (key r : Bits) : Bits :=
  select outputPermutation (substituteAll (xor (select expansion r) key))

/-- One round without a salt. -/
def plainRound (key : Bits) (b : Bits × Bits) : Bits × Bits :=
  (b.2, xor b.1 (plainFunction key b.2))

/-- The block, encrypted or decrypted under a schedule of round keys. -/
def plainCrypt (direction : Direction) (keys : Nat → Bits) (block : Bits) : Bits :=
  let b := select initialPermutation block
  let (l, r) := Fin.foldl 16 (fun b i => plainRound (keys (keyIndex direction i)) b)
    (b.take 32, b.drop 32)
  select finalPermutation (r ++ l)

theorem exchange_zero {b : Bits} (h : b.length = 48) : exchange 0 b = b := by
  apply List.ext_getElem
  · simp [exchange, h]
  · intro i hi hi'
    simp [exchange, hi']

theorem round_zero (key : Bits) (b : Bits × Bits) : round 0 key b = plainRound key b := by
  rw [round, roundFunction, exchange_zero (length_select expansion b.2), plainRound, plainFunction]

/-- The cipher with salt zero is plain DES under the schedule of the key. -/
theorem crypt_zero (direction : Direction) (key block : Bits) :
    crypt direction 0 key block = plainCrypt direction (roundKey key) block := by
  simp only [crypt, round_zero, plainCrypt]

theorem length_roundKey (key : Bits) (i : Nat) : (roundKey key i).length = 48 :=
  length_select roundChoice _

/-- The schedule of the zero key. -/
theorem roundKey_replicate (n i : Nat) :
    roundKey (List.replicate n false) i = List.replicate 48 false := by
  have hchoice : keyChoice.length = 56 := rfl
  rw [roundKey, keyHalves_eq_rotate, select_replicate, hchoice, List.take_replicate,
    List.drop_replicate, List.rotate_replicate, List.rotate_replicate]
  show select roundChoice (List.replicate 28 false ++ List.replicate 28 false) = _
  rw [List.replicate_append_replicate, select_replicate]
  rfl

/-! ## Words of a schedule -/

/-- The words of a schedule as they are stored: the first halves of the round keys, the second
    halves, and the salt zero. -/
def storedWords (keys : Nat → Bits) : List UInt32 :=
  (List.range 16).map (fun i => UInt32.ofNat (toNat ((keys i).take 24))) ++
    (List.range 16).map (fun i => UInt32.ofNat (toNat ((keys i).drop 24))) ++ [0]

/-- Half of a round key takes 24 bits of its word. -/
theorem storedWords_lt {keys : Nat → Bits} (h : ∀ i, (keys i).length = 48) :
    ∀ w ∈ storedWords keys, w.toNat < 2 ^ 24 := by
  have hhalf : ∀ b : Bits, b.length = 24 → (UInt32.ofNat (toNat b)).toNat < 2 ^ 24 := by
    intro b hb
    have hlt := toNat_lt b
    rw [hb] at hlt
    rwa [UInt32.toNat_ofNat_of_lt' (Nat.lt_trans hlt (by decide))]
  intro w hw
  rw [storedWords, List.mem_append, List.mem_append, List.mem_map, List.mem_map,
    List.mem_singleton] at hw
  rcases hw with (⟨i, -, rfl⟩ | ⟨i, -, rfl⟩) | rfl
  · exact hhalf _ (by rw [List.length_take, h]; rfl)
  · exact hhalf _ (by rw [List.length_drop, h])
  · decide

end Standard

open Standard Bits

namespace Context

/-! ## Stored contexts -/

/-- A stored context is read back. -/
theorem ofBytes_toBytes (ctx : Context) : ofBytes ctx.toBytes = ctx := by
  obtain ⟨left, right, saltBits⟩ := ctx
  simp only [ofBytes, toBytes, Word.wordsLE32_flatMap, Context.mk.injEq]
  refine ⟨?left, ?right, ?salt⟩
  case left =>
    apply Vector.ext
    intro i hi
    simp [List.getElem?_append]
  case right =>
    apply Vector.ext
    intro i hi
    simp [List.getElem?_append]
  case salt =>
    simp

/-- The words of a round key are its halves. -/
theorem roundKey_eq (key : Block) {i : Nat} (hi : i < 16) :
    Des.roundKey roundMasks.1 (keyHalves key) i =
        UInt32.ofNat (toNat ((Standard.roundKey key.bits i).take 24)) ∧
      Des.roundKey roundMasks.2 (keyHalves key) i =
        UInt32.ofNat (toNat ((Standard.roundKey key.bits i).drop 24)) := by
  have hleft : (Des.roundKey roundMasks.1 (keyHalves key) i).toNat < 2 ^ 24 := roundKey_lt _ i
  have hright : (Des.roundKey roundMasks.2 (keyHalves key) i).toNat < 2 ^ 24 := roundKey_lt _ i
  rw [← ofNat_roundKey key hi, List.take_left' (length_ofNat _ _),
    List.drop_left' (length_ofNat _ _), toNat_ofNat, toNat_ofNat, Nat.mod_eq_of_lt hleft,
    Nat.mod_eq_of_lt hright, UInt32.ofNat_toNat, UInt32.ofNat_toNat]
  exact ⟨rfl, rfl⟩

/-- What is stored for a key without a salt: the words of its schedule. -/
theorem toBytes_ofKey (key : Block) :
    (ofKey key 0).toBytes = (storedWords (Standard.roundKey key.bits)).flatMap Word.bytesLE32 := by
  have hwords : ∀ f g : Nat → UInt32, (∀ i < 16, f i = g i) →
      (Vector.ofFn fun i : Fin 16 => f i).toList = (List.range 16).map g := by
    intro f g hfg
    apply List.ext_getElem
    · simp
    · intro i hi hi'
      simpa using hfg i (by simpa using hi')
  have hleft := hwords _ _ fun i hi => (roundKey_eq key hi).1
  have hright := hwords _ _ fun i hi => (roundKey_eq key hi).2
  have hsalt : (ofKey key 0).saltBits = 0 := by
    show saltMask 0 = 0
    decide
  rw [toBytes, hsalt, storedWords, ← hleft, ← hright]
  rfl

/-- Under a key without a salt the cipher is plain DES. -/
theorem bits_crypt_ofKey (key : Block) (direction : Direction) (b : Block) :
    ((ofKey key 0).crypt direction 1 b).bits =
      plainCrypt direction (Standard.roundKey key.bits) b.bits := by
  rw [← crypt_zero]
  exact bits_crypt zero key 0 direction b

theorem indices_ofKey_lt (key : Block) (i : Fin 16) (r : UInt32) (k : Fin 4) :
    (ofKey key 0).indices i r k < 4096 :=
  indices_lt zero key 0 i r k

end Context

end Des

end PassHash
