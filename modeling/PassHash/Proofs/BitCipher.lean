import PassHash.BitCipher
import PassHash.Proofs.Cipher.Des.Schedule

/-!
# Calls of the Bitwise Cipher

Hashing and the cipher share the internal region of a workspace. Whatever is called in whatever
order, the region holds a schedule and zeros after it: the schedule of the key that was set last, or
the zero schedule if a workspace has been hashed in since, or if no key was ever set. So the cipher
can trust the words that it finds there, and what it computes is plain DES. On a thread, which keeps
a workspace of its own for the cipher, hashing does not come between a key and its use.

## Contents

- `BitCipher.lowBits`, `BitCipher.bitBytes`: the bits that bytes pass in and out
- `BitCipher.Call`, `BitCipher.latestKey?`: calls, and the key in force after them
- `Workspace.run`: the workspace after calls
- `Session.encrypted`: the results of the encryptions among the calls on a thread

## Main statements

- `BitCipher.bits_pack`, `BitCipher.unpack_eq`: blocks and bytes have the same bits
- `Workspace.Keyed.after`, `Workspace.keyed_run`: what one call and any calls leave in the region
- `Session.encrypted_filter`: hashing on a thread changes no result of the cipher
- `Workspace.cipher_run`: the region, its words and the results after any calls
-/

namespace PassHash

open Des.Standard (storedWords plainCrypt)
open Des.Standard.Bits

namespace BitCipher

/-! ## Bits in bytes -/

/-- The low bits of bytes. -/
def lowBits (bytes : Bytes) : Des.Standard.Bits := bytes.map fun c => c.toNat.testBit 0

/-- A byte of zero or one for each bit. -/
def bitBytes (bits : Des.Standard.Bits) : Bytes := bits.map Bool.toUInt8

theorem packWord_append_singleton (bytes : Bytes) (c : UInt8) :
    packWord (bytes ++ [c]) = (packWord bytes <<< 1) ||| (c &&& 1).toUInt32 := by
  simp [packWord]

theorem lowBits_append_singleton (bytes : Bytes) (c : UInt8) :
    lowBits (bytes ++ [c]) = lowBits bytes ++ [c.toNat.testBit 0] := by
  simp [lowBits]

/-- Up to 32 bits a word loses none. -/
theorem toNat_packWord {bytes : Bytes} (h : bytes.length ≤ 32) :
    (packWord bytes).toNat = toNat (lowBits bytes) := by
  -- the last byte is the lowest bit, so the word grows at the end of the list
  induction bytes using List.reverseRecOn with
  | nil => rfl
  | append_singleton bytes c ih =>
    rw [List.length_append, List.length_singleton] at h
    have hlt : toNat (lowBits bytes) < 2 ^ 31 := by
      refine Nat.lt_of_lt_of_le (toNat_lt _) (Nat.pow_le_pow_right (by decide) ?_)
      rw [lowBits, List.length_map]
      omega
    have hlow : (c &&& 1).toUInt32.toNat = (c.toNat.testBit 0).toNat := by
      rw [UInt8.toNat_toUInt32, UInt8.toNat_and, Nat.toNat_testBit, Nat.pow_zero, Nat.div_one]
      exact Nat.and_one_is_mod _
    have hshift : (packWord bytes <<< 1).toNat = toNat (lowBits bytes) <<< 1 := by
      rw [← ih (by omega)] at hlt ⊢
      have hword := Word.toNat_shiftLeft (packWord bytes) (n := 1) (by decide)
      rw [Nat.mod_eq_of_lt (by rw [Nat.shiftLeft_eq]; omega)] at hword
      exact hword
    rw [packWord_append_singleton, lowBits_append_singleton, toNat_append_singleton,
      UInt32.toNat_or, hshift, hlow, ← Nat.shiftLeft_add_eq_or_of_lt (Bool.toNat_lt _),
      Nat.shiftLeft_eq, Nat.mul_comm]

/-- A block has the low bits of the bytes that it is made of. -/
theorem bits_pack {bytes : Bytes} (h : bytes.length = 64) : (pack bytes).bits = lowBits bytes := by
  have hword : ∀ b : Bytes, b.length = 32 → ofNat 32 (packWord b).toNat = lowBits b := by
    intro b hb
    have hlength : (lowBits b).length = 32 := by rw [lowBits, List.length_map, hb]
    rw [toNat_packWord (Nat.le_of_eq hb), ← hlength, ofNat_toNat]
  have hrest : (bytes.drop 32).length = 32 := by rw [List.length_drop, h]
  rw [Des.Block.bits, pack, hword _ (List.length_take_of_le (by omega)),
    List.take_of_length_le (Nat.le_of_eq hrest), hword _ hrest, lowBits, lowBits, ← List.map_append,
    List.take_append_drop, lowBits]

/-- The bytes of a block are its bits. -/
theorem unpack_eq (b : Des.Block) : unpack b = bitBytes b.bits := by
  have hbool : ∀ x : Bool, x.toUInt8.toNat = x.toNat := by decide
  have hword : ∀ w : UInt32, unpackWord w = bitBytes (ofNat 32 w.toNat) := by
    intro w
    rw [unpackWord, bitBytes, ofNat, List.map_map]
    refine List.map_congr_left fun i hi => ?_
    have hplace : 31 - i < 32 := by omega
    have hone : w.toNat / 2 ^ (31 - i) % 2 % 2 ^ 8 = w.toNat / 2 ^ (31 - i) % 2 := by omega
    apply UInt8.toNat_inj.1
    rw [Function.comp_apply, hbool, Nat.toNat_testBit, UInt32.toNat_toUInt8, UInt32.toNat_and,
      Word.toNat_shiftRight w hplace, Nat.shiftRight_eq_div_pow]
    exact (congrArg (· % 2 ^ 8) (Nat.and_one_is_mod _)).trans hone
  rw [unpack, hword, hword, bitBytes, bitBytes, ← List.map_append, Des.Block.bits, bitBytes]

/-! ## Calls -/

/-- A call on memory that hashing and the cipher share. -/
inductive Call
  | crypt (phrase setting : Bytes)
  | setKey (key : Region 64)
  | encrypt (block : Region 64) (flag : Int)

namespace Call

/-- Whether a call leaves hashing alone. -/
def isCipher : Call → Bool
  | crypt .. => false
  | _ => true

/-- The key in force after a call, if any: hashing discards it. -/
def nextKey? (key? : Option (Region 64)) : Call → Option (Region 64)
  | crypt .. => none
  | setKey key => some key
  | encrypt .. => key?

end Call

/-- The key in force after calls: the one set last, unless a phrase was hashed since. -/
def latestKey? (calls : List Call) : Option (Region 64) := calls.foldl Call.nextKey? none

/-- The round keys of a key, all zero when there is none. -/
def schedule : Option (Region 64) → Nat → Des.Standard.Bits
  | some key => Des.Standard.roundKey (lowBits key.bytes)
  | none => fun _ => List.replicate 48 false

theorem length_schedule (key? : Option (Region 64)) (i : Nat) : (schedule key? i).length = 48 := by
  cases key? with
  | none => exact List.length_replicate
  | some key => exact Des.Standard.length_roundKey _ i

/-- The block that stands for a key, zero when there is none. -/
def keyBlock : Option (Region 64) → Des.Block
  | some key => pack key.bytes
  | none => .zero

theorem schedule_eq (key? : Option (Region 64)) :
    schedule key? = Des.Standard.roundKey (keyBlock key?).bits := by
  cases key? with
  | none =>
    have hzero : Des.Block.zero.bits = List.replicate 64 false := by decide
    funext i
    rw [keyBlock, hzero, Des.Standard.roundKey_replicate, schedule]
  | some key => rw [keyBlock, bits_pack key.length_bytes, schedule]

end BitCipher

open BitCipher

/-! ## One workspace -/

namespace Workspace

variable {ws : Workspace} {key? : Option (Region 64)}

/-- The workspace after a call. Encryption changes nothing in it. -/
def after (ws : Workspace) : Call → Workspace
  | .crypt phrase setting => (ws.crypt phrase setting).2
  | .setKey key => ws.setKey key.bytes
  | .encrypt .. => ws

/-- The workspace after calls, one after the other. -/
def run (ws : Workspace) (calls : List Call) : Workspace := calls.foldl after ws

/-- The region holds the schedule of a key, and zeros after it. -/
def Keyed (ws : Workspace) (key? : Option (Region 64)) : Prop :=
  ws.internal.bytes = (storedWords (schedule key?)).flatMap Word.bytesLE32 ++
    List.replicate (30720 - Des.Context.storedSize) 0

theorem toBytes_keyBlock (key? : Option (Region 64)) :
    (Des.Context.ofKey (keyBlock key?) 0).toBytes =
      (storedWords (schedule key?)).flatMap Word.bytesLE32 := by
  rw [Des.Context.toBytes_ofKey, schedule_eq]

theorem length_storedWords (key? : Option (Region 64)) :
    ((storedWords (schedule key?)).flatMap Word.bytesLE32).length = Des.Context.storedSize := by
  rw [← toBytes_keyBlock, Des.Context.length_toBytes]

/-- The zero schedule is a region of zeros. -/
theorem keyed_none_iff : ws.Keyed none ↔ ws.internal.bytes = List.replicate 30720 0 := by
  have hwords : (storedWords (schedule none)).flatMap Word.bytesLE32 =
      List.replicate Des.Context.storedSize 0 := by decide
  rw [Keyed, hwords, List.replicate_append_replicate]
  rfl

/-- One call leaves the schedule of the key that is in force then. -/
theorem Keyed.after (h : ws.Keyed key?) (call : Call) :
    (ws.after call).Keyed (call.nextKey? key?) := by
  cases call with
  | crypt phrase setting => exact keyed_none_iff.2 rfl
  | setKey key =>
    have hset : (ws.setKey key.bytes).internal.bytes =
        (Des.Context.ofKey (keyBlock (some key)) 0).toBytes.take 30720 ++
          ws.internal.bytes.drop (Des.Context.ofKey (keyBlock (some key)) 0).toBytes.length := rfl
    -- the schedule before has the same length, and zeros after it
    rw [h, toBytes_keyBlock, length_storedWords, ← length_storedWords key?, List.drop_left,
      List.take_of_length_le (by rw [length_storedWords]; decide)] at hset
    exact hset
  | encrypt block flag => exact h

/-- After any calls on a workspace of zeros, the region holds the schedule of the key in force. -/
theorem keyed_run (calls : List Call) : (zero.run calls).Keyed (latestKey? calls) := by
  induction calls using List.reverseRecOn with
  | nil => exact keyed_none_iff.2 rfl
  | append_singleton calls call ih =>
    rw [run, latestKey?, List.foldl_append, List.foldl_append]
    exact ih.after call

/-! ## Use of the schedule -/

/-- The context that the cipher reads from the region. -/
theorem Keyed.context (h : ws.Keyed key?) :
    Des.Context.ofBytes (ws.internal.bytes.take Des.Context.storedSize) =
      .ofKey (keyBlock key?) 0 := by
  rw [h, List.take_left' (length_storedWords key?), ← toBytes_keyBlock,
    Des.Context.ofBytes_toBytes]

theorem Keyed.wordsLE32_lt (h : ws.Keyed key?) :
    ∀ w ∈ Word.wordsLE32 (ws.internal.bytes.take Des.Context.storedSize), w.toNat < 2 ^ 24 := by
  rw [h, List.take_left' (length_storedWords key?), Word.wordsLE32_flatMap]
  exact Des.Standard.storedWords_lt (length_schedule key?)

theorem Keyed.indices_lt (h : ws.Keyed key?) (i : Fin 16) (r : UInt32) (k : Fin 4) :
    (Des.Context.ofBytes (ws.internal.bytes.take Des.Context.storedSize)).indices i r k < 4096 := by
  rw [h.context]
  exact Des.Context.indices_ofKey_lt _ i r k

/-- What the cipher computes is plain DES under the schedule. -/
theorem Keyed.encrypt (h : ws.Keyed key?) (block : Region 64) (flag : Int) :
    ws.encrypt block.bytes flag =
      bitBytes (plainCrypt (direction flag) (schedule key?) (lowBits block.bytes)) := by
  rw [Workspace.encrypt, h.context, unpack_eq, Des.Context.bits_crypt_ofKey,
    bits_pack block.length_bytes, schedule_eq]

end Workspace

/-! ## One thread -/

namespace Session

/-- The results of the encryptions among calls. -/
def encrypted : Session → List Call → List Bytes
  | _, [] => []
  | s, .crypt phrase setting :: calls => encrypted (s.crypt phrase setting).2 calls
  | s, .setKey key :: calls => encrypted (s.setKey key.bytes) calls
  | s, .encrypt block flag :: calls => s.encrypt block.bytes flag :: encrypted s calls

theorem cipher_crypt (s : Session) (phrase setting : Bytes) :
    (s.crypt phrase setting).2.cipher = s.cipher := rfl

theorem cipher_setKey (s : Session) (key : Bytes) :
    (s.setKey key).cipher = s.cipher.setKey key := rfl

/-- Only the workspace for the cipher matters. -/
theorem encrypted_congr {s s' : Session} (h : s.cipher = s'.cipher) (calls : List Call) :
    s.encrypted calls = s'.encrypted calls := by
  induction calls generalizing s s' with
  | nil => rfl
  | cons call calls ih =>
    cases call with
    | crypt phrase setting =>
      rw [encrypted, encrypted]
      apply ih
      rw [cipher_crypt, cipher_crypt, h]
    | setKey key =>
      rw [encrypted, encrypted]
      apply ih
      rw [cipher_setKey, cipher_setKey, h]
    | encrypt block flag => rw [encrypted, encrypted, Session.encrypt, Session.encrypt, h, ih h]

/-- Hashing between the calls of the cipher changes none of its results. -/
theorem encrypted_filter (s : Session) (calls : List Call) :
    s.encrypted (calls.filter Call.isCipher) = s.encrypted calls := by
  induction calls generalizing s with
  | nil => rfl
  | cons call calls ih =>
    cases call with
    | crypt phrase setting =>
      -- the workspace for the cipher is another one than the workspace for hashes
      rw [List.filter_cons_of_neg Bool.false_ne_true, encrypted, ih]
      exact encrypted_congr (cipher_crypt s phrase setting).symm calls
    | setKey key => rw [List.filter_cons_of_pos rfl, encrypted, encrypted, ih]
    | encrypt block flag => rw [List.filter_cons_of_pos rfl, encrypted, encrypted, ih]

end Session

/-! ## Results -/

/-- After any calls on a workspace of zeros, the region is zero if no key is in force, and holds
    its schedule and zeros otherwise; all words of the schedule have 24 bits, and every index lies
    in its table; and the cipher encrypts and decrypts as DES does under the schedule. On a thread,
    hashing in between changes no result of the cipher. -/
theorem Workspace.cipher_run (calls : List Call) :
    (latestKey? calls = none →
      (zero.run calls).internal.bytes = List.replicate 30720 0) ∧
    (zero.run calls).internal.bytes =
      (storedWords (schedule (latestKey? calls))).flatMap Word.bytesLE32 ++
        List.replicate (30720 - Des.Context.storedSize) 0 ∧
    (∀ w ∈ Word.wordsLE32 ((zero.run calls).internal.bytes.take Des.Context.storedSize),
      w.toNat < 2 ^ 24) ∧
    (∀ i r k, (Des.Context.ofBytes
      ((zero.run calls).internal.bytes.take Des.Context.storedSize)).indices i r k < 4096) ∧
    (∀ (block : Region 64) (flag : Int), (zero.run calls).encrypt block.bytes flag =
      bitBytes (plainCrypt (if flag = 0 then .encrypt else .decrypt)
        (schedule (latestKey? calls)) (lowBits block.bytes))) ∧
    (∀ s : Session, s.encrypted (calls.filter Call.isCipher) = s.encrypted calls) := by
  have hkeyed := keyed_run calls
  refine ⟨?zero, hkeyed, hkeyed.wordsLE32_lt, hkeyed.indices_lt, hkeyed.encrypt,
    fun s => s.encrypted_filter calls⟩
  case zero =>
    intro hnone
    rw [hnone] at hkeyed
    exact keyed_none_iff.1 hkeyed

/-- A key set after a call of hashing encrypts a block; one set before it is gone. -/
theorem Workspace.cipher_run_hashed :
    let key : Region 64 := ⟨unpack ⟨0x01234567, 0x89abcdef⟩, length_unpack _⟩
    let block : Region 64 := ⟨unpack ⟨0x4e6f7720, 0x69732074⟩, length_unpack _⟩
    latestKey? [.setKey key, .crypt [] []] = none ∧
      (zero.run [.setKey key, .crypt [] []]).internal.bytes = List.replicate 30720 0 ∧
      (zero.run [.crypt [] [], .setKey key]).encrypt block.bytes 0 =
        unpack ⟨0x3fa40e8a, 0x984d4815⟩ := by
  intro key block
  refine ⟨rfl, (cipher_run [.setKey key, .crypt [] []]).1 rfl, ?_⟩
  rw [(cipher_run [.crypt [] [], .setKey key]).2.2.2.2.1 block 0]
  decide +kernel

end PassHash
