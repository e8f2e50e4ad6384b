import PassHash.Proofs.Cipher.Des.Inverse
import PassHash.Proofs.Scheme.Descrypt
import PassHash.Scheme.BsdiCrypt

/-!
# Digests Made of Encryptions

A digest of the DES schemes is the zero block, encrypted again and again; the count is that many
encryptions of a single block. Bigcrypt puts such digests one after the other: each is what the
scheme with a single block makes of its eight bytes of the phrase, under the salt that the text
before it starts with.

## Contents

- `Descrypt.piece`: the bytes of a phrase that make one block
- `Descrypt.blockList`: the chained blocks one by one
- `Descrypt.cipherBlock`, `Descrypt.cipherBlocks`: blocks before they are written

## Main statements

- `Descrypt.encoded_eq_iterate`: a digest as encryptions of a single block
- `Descrypt.hashSingle_eq_ok`: what a hash with a single block consists of
- `Descrypt.length_blockList`, `Descrypt.block_of_blockList`: how many blocks there are, and which
- `Descrypt.flatMap_cipherBlocks`: blocks are the characters of encrypted ones
- `Descrypt.counted_encryptions`: counts add up, and digests are as many encryptions as they count
- `Descrypt.hashChained_links`: bigcrypt as a chain of hashes with a single block
-/

namespace PassHash

namespace Descrypt

open Base64

variable {room : Room} {phrase setting : Bytes} {salt : Nat}

/-! ## Counted encryptions -/

/-- A digest is the zero block, encrypted as often as its count says. -/
theorem encoded_eq_iterate (ctx : Des.Context) (count : Nat) :
    encoded ctx count =
      encodeHigh .crypt ((ctx.cryptBytes .encrypt 1)^[max count 1] (List.replicate 8 0)) := by
  have hzero : Des.Block.ofBytes (List.replicate 8 0) = .zero := rfl
  rw [← ctx.cryptBytes_eq_iterate .encrypt (Nat.le_max_right count 1), Des.Context.cryptBytes,
    hzero, Des.Context.crypt_max_one, encoded]

/-- Encrypting or decrypting `a + b` times is doing so `a` times and then `b` times, and `a` times
    is a single block `a` times. So the 25 encryptions of a digest under two salt characters, and
    those that an extended setting counts, are encryptions of a single block; a count of zero is
    taken for one. -/
theorem counted_encryptions (ctx : Des.Context) (direction : Des.Direction) {a b : Nat}
    (ha : 1 ≤ a) (hb : 1 ≤ b) (x : Bytes) :
    ctx.cryptBytes direction (a + b) x =
      ctx.cryptBytes direction b (ctx.cryptBytes direction a x) ∧
    ctx.cryptBytes direction a x = (ctx.cryptBytes direction 1)^[a] x ∧
    (∀ salt phrase, block salt phrase = encodeHigh .crypt
      (((Des.Context.ofKey (key phrase) (UInt32.ofNat salt)).cryptBytes .encrypt 1)^[25]
        (List.replicate 8 0))) ∧
    ∀ (s : BsdiCrypt.Setting) phrase, BsdiCrypt.digest s phrase = encodeHigh .crypt
      (((Des.Context.ofKey (BsdiCrypt.foldKey .zero phrase)
        (UInt32.ofNat s.salt)).cryptBytes .encrypt 1)^[max s.count 1] (List.replicate 8 0)) := by
  refine ⟨ctx.cryptBytes_add direction ha hb x, ctx.cryptBytes_eq_iterate direction ha x, ?_, ?_⟩
  · intro salt phrase
    exact encoded_eq_iterate _ 25
  · intro s phrase
    exact encoded_eq_iterate _ s.count

/-- Seven decryptions under a salt are three and then four. -/
theorem counted_encryptions_seven :
    let ctx := Des.Context.ofKey (key (Bytes.ascii "secret")) 0xabc
    let x := Bytes.ascii "8 bytes."
    1 ≤ 3 ∧ 1 ≤ 4 ∧ ctx.cryptBytes .decrypt 7 x =
      ctx.cryptBytes .decrypt 4 (ctx.cryptBytes .decrypt 3 x) := by
  intro ctx x
  have hthree : 1 ≤ 3 := by decide
  have hfour : 1 ≤ 4 := by decide
  exact ⟨hthree, hfour, (counted_encryptions ctx .decrypt hthree hfour x).1⟩

/-! ## Salts read from texts -/

/-- Two salt characters are a salt, whatever follows them. -/
theorem exists_salt? {c d : UInt8} (hc : Field.isCryptChar c = true)
    (hd : Field.isCryptChar d = true) (rest : Bytes) :
    ∃ salt, salt? (c :: d :: rest) = some salt := by
  obtain ⟨low, hlow⟩ := Option.isSome_iff_exists.1 hc
  obtain ⟨high, hhigh⟩ := Option.isSome_iff_exists.1 hd
  exact ⟨low + 64 * high, by simp [salt?, number?, hlow, hhigh]⟩

/-- A salt is written with the two characters that it was read from. -/
theorem digits_of_salt? (hs : salt? setting = some salt) : digits 2 salt = setting.take 2 := by
  have hprefix := List.prefix_iff_eq_take.1 (salt?_eq_some hs).2
  rwa [length_digits] at hprefix

theorem salt?_take_two (setting : Bytes) : salt? (setting.take 2) = salt? setting := by
  match setting with
  | [] | [_] | _ :: _ :: _ => rfl

/-- Every block starts with a salt. -/
theorem exists_salt?_block (salt : Nat) (phrase : Bytes) :
    ∃ next, salt? (block salt phrase) = some next := by
  have hlength := length_block salt phrase
  match hblock : block salt phrase with
  | [] | [_] =>
    rw [hblock] at hlength
    cases hlength
  | c :: d :: rest =>
    have hchars : ∀ x ∈ block salt phrase, Field.isCryptChar x = true :=
      fun _ => isCryptChar_of_mem_encoded
    rw [hblock] at hchars
    exact exists_salt? (hchars c (by simp)) (hchars d (by simp)) rest

/-! ## Single blocks -/

/-- The bytes of a phrase that block `k` is made of. -/
def piece (phrase : Bytes) (k : Nat) : Bytes := (phrase.drop (8 * k)).take 8

theorem piece_drop (phrase : Bytes) (k : Nat) : piece (phrase.drop 8) k = piece phrase (k + 1) := by
  rw [piece, piece, List.drop_drop, Nat.mul_succ, Nat.add_comm 8]

/-- A block looks at eight bytes of a phrase. -/
theorem block_take (salt : Nat) (phrase : Bytes) :
    block salt (phrase.take 8) = block salt phrase := by
  have hkey : key (phrase.take 8) = key phrase := by
    rw [key, key]
    congr 1
    apply List.map_congr_left
    intro i hi
    rw [List.getD_eq_getElem?_getD, List.getElem?_take_of_lt (List.mem_range.1 hi),
      List.getD_eq_getElem?_getD]
  rw [block, block, hkey]

theorem hashSingle_eq_ok (ho : hashLength + 1 ≤ room.output) (hs : scratchSize ≤ room.scratch)
    (hsalt : salt? setting = some salt) :
    hashSingle room phrase setting = .ok (setting.take 2 ++ block salt phrase) := by
  rw [hashSingle, Checks.need_bind_eq_ok_iff, Checks.need_bind_eq_ok_iff,
    Checks.orInvalid_bind_eq_ok_iff]
  refine ⟨ho, hs, salt, hsalt, Checks.fit_eq_ok_iff.2 ⟨?_, ?_⟩⟩
  · rw [← digits_of_salt? hsalt, List.length_append, length_digits, length_block]
    exact ho
  · rw [digits_of_salt? hsalt]

theorem hashChained_eq_ok (ho : 2 + 11 * maxBlocks + 1 ≤ room.output)
    (hs : scratchSize ≤ room.scratch) (hsalt : salt? setting = some salt) :
    hashChained room phrase setting = .ok (setting.take 2 ++ blocks maxBlocks salt phrase) := by
  rw [hashChained, Checks.need_bind_eq_ok_iff, Checks.need_bind_eq_ok_iff,
    Checks.orInvalid_bind_eq_ok_iff]
  refine ⟨ho, hs, salt, hsalt, Checks.fit_eq_ok_iff.2 ⟨?_, ?_⟩⟩
  · have hlength := length_blocks_le maxBlocks salt phrase
    rw [← digits_of_salt? hsalt, List.length_append, length_digits]
    omega
  · rw [digits_of_salt? hsalt]

/-! ## Chained blocks -/

/-- The chained blocks of a phrase, one by one. -/
def blockList : (n : Nat) → (salt : Nat) → (phrase : Bytes) → List Bytes
  | 0, _, _ => []
  | n + 1, salt, phrase =>
    let text := block salt phrase
    text :: if phrase.length ≤ 8 then []
      else blockList n ((salt? text).getD 0) (phrase.drop 8)

theorem flatten_blockList (n salt : Nat) (phrase : Bytes) :
    (blockList n salt phrase).flatten = blocks n salt phrase := by
  induction n generalizing salt phrase with
  | zero => rfl
  | succ n ih =>
    rw [blockList, blocks]
    split
    · next hlength =>
      rw [List.drop_eq_nil_of_le hlength]
      simp
    · next hlength =>
      -- bytes are left, so there is a next block
      have hne : phrase.drop 8 ≠ [] := fun h => hlength (List.drop_eq_nil_iff.1 h)
      split
      · next hnil => exact absurd hnil hne
      · rw [List.flatten_cons, ih]

/-- A phrase fills a block for every eight bytes, and one at least, until there are enough. -/
theorem length_blockList (n salt : Nat) (phrase : Bytes) :
    (blockList n salt phrase).length = min n (max 1 ((phrase.length + 7) / 8)) := by
  induction n generalizing salt phrase with
  | zero => simp [blockList]
  | succ n ih =>
    rw [blockList]
    split
    · rw [List.length_singleton]
      omega
    · rw [List.length_cons, ih, List.length_drop]
      omega

theorem length_of_mem_blockList {n : Nat} {text : Bytes} (h : text ∈ blockList n salt phrase) :
    text.length = 11 := by
  induction n generalizing salt phrase with
  | zero => cases h
  | succ n ih =>
    rw [blockList] at h
    rcases List.mem_cons.1 h with rfl | h
    · exact length_block ..
    · split at h
      · cases h
      · exact ih h

/-- Each block is made of its bytes of the phrase, under the salt that the text before it starts
    with: the block before, and the setting before the first. -/
theorem block_of_blockList {n k : Nat} {before text : Bytes} (hs : salt? setting = some salt)
    (hbefore : (setting :: blockList n salt phrase)[k]? = some before)
    (htext : (blockList n salt phrase)[k]? = some text) :
    ∃ s, salt? before = some s ∧ text = block s (piece phrase k) := by
  induction n generalizing setting salt phrase k with
  | zero => cases htext
  | succ n ih =>
    rw [blockList] at hbefore htext
    cases k with
    | zero =>
      cases hbefore
      cases htext
      exact ⟨salt, hs, (block_take salt phrase).symm⟩
    | succ k =>
      rw [List.getElem?_cons_succ] at hbefore htext
      split at htext
      · cases htext
      · next hlength =>
        -- the rest of the chain starts at the block that was just made
        obtain ⟨next, hnext⟩ := exists_salt?_block salt phrase
        rw [if_neg hlength, hnext, Option.getD_some] at hbefore
        rw [hnext, Option.getD_some] at htext
        rw [← piece_drop]
        exact ih hnext hbefore htext

/-- The blocks look at no more than their bytes of the phrase. -/
theorem blockList_take (n salt : Nat) (phrase : Bytes) :
    blockList n salt (phrase.take (8 * n)) = blockList n salt phrase := by
  induction n generalizing salt phrase with
  | zero => rfl
  | succ n ih =>
    have htext : block salt (phrase.take (8 * (n + 1))) = block salt phrase := by
      rw [← block_take, List.take_take, Nat.min_eq_left (by omega), block_take]
    have hdrop : (phrase.take (8 * (n + 1))).drop 8 = (phrase.drop 8).take (8 * n) := by
      rw [List.drop_take, Nat.mul_succ, Nat.add_sub_cancel]
    rw [blockList, blockList, htext, hdrop, ih]
    congr 1
    cases n with
    | zero => simp [blockList]
    | succ n =>
      -- with another block to come, the cut leaves more than eight bytes if there are as many
      have hlength : (phrase.take (8 * (n + 1 + 1))).length ≤ 8 ↔ phrase.length ≤ 8 := by
        rw [List.length_take]
        omega
      simp only [hlength]

theorem blocks_take (n salt : Nat) (phrase : Bytes) :
    blocks n salt (phrase.take (8 * n)) = blocks n salt phrase := by
  rw [← flatten_blockList, ← flatten_blockList, blockList_take]

/-- The blocks start with the one that the scheme with a single block makes. -/
theorem take_blocks (n salt : Nat) (phrase : Bytes) :
    (blocks (n + 1) salt phrase).take 11 = block salt phrase := by
  have hlength := length_block salt phrase
  rw [blocks]
  split
  · exact List.take_of_length_le (Nat.le_of_eq hlength)
  · exact List.take_left' hlength

/-- A phrase that fills no second block has just that one. -/
theorem blocks_of_length_le {n : Nat} (h : phrase.length ≤ 8) :
    blocks (n + 1) salt phrase = block salt phrase := by
  rw [← flatten_blockList, blockList]
  simp [h]

/-! ## Blocks as bytes -/

/-- The zero block, encrypted under a key and a salt; a digest is its characters. -/
def cipherBlock (salt : Nat) (phrase : Bytes) : Bytes :=
  (Des.Context.ofKey (key phrase) (UInt32.ofNat salt)).cryptBytes .encrypt 25 (List.replicate 8 0)

/-- The chained blocks of a phrase before they are written. -/
def cipherBlocks : (n : Nat) → (salt : Nat) → (phrase : Bytes) → List Bytes
  | 0, _, _ => []
  | n + 1, salt, phrase =>
    let block := cipherBlock salt phrase
    block :: if phrase.length ≤ 8 then []
      else cipherBlocks n ((salt? (encodeHigh .crypt block)).getD 0) (phrase.drop 8)

theorem flatMap_cipherBlocks (n salt : Nat) (phrase : Bytes) :
    (cipherBlocks n salt phrase).flatMap (encodeHigh .crypt) = blocks n salt phrase := by
  have hmap : (cipherBlocks n salt phrase).map (encodeHigh .crypt) = blockList n salt phrase := by
    induction n generalizing salt phrase with
    | zero => rfl
    | succ n ih =>
      rw [cipherBlocks, blockList, List.map_cons]
      split
      · rfl
      · rw [ih]
        rfl
  rw [← flatten_blockList, ← hmap]
  rfl

/-- A phrase that is cut has a single block. -/
theorem flatMap_cipherBlocks_of_isCut (cut : Bool) (salt : Nat) (phrase : Bytes) :
    (cipherBlocks (if cut then 1 else maxBlocks) salt phrase).flatMap (encodeHigh .crypt) =
      digestText cut salt phrase := by
  rw [flatMap_cipherBlocks]
  cases cut with
  | false => rfl
  | true =>
    show blocks 1 salt phrase = block salt phrase
    rw [blocks]
    split
    · rfl
    · exact List.append_nil _

theorem length_of_mem_cipherBlocks {n : Nat} {block : Bytes}
    (h : block ∈ cipherBlocks n salt phrase) : block.length = 8 := by
  induction n generalizing salt phrase with
  | zero => cases h
  | succ n ih =>
    rw [cipherBlocks] at h
    rcases List.mem_cons.1 h with rfl | h
    · exact Des.Block.length_toBytes _
    · split at h
      · cases h
      · exact ih h

/-! ## Bigcrypt -/

/-- With room for all its blocks and a setting that starts with two salt characters, bigcrypt writes
    these and then blocks of eleven characters, one for every eight bytes of the phrase, one at
    least and sixteen at most. Block `k` is what a hash with a single block has for its bytes under
    the first two characters of the text before it: the block before, or the setting. So the hash
    with a single block is the start of the chain, for up to eight bytes both are the same whatever
    follows the salt, and bytes from the 129th on do not matter. -/
theorem hashChained_links (room : Room) (phrase : Bytes) (ho : 2 + 11 * 16 + 1 ≤ room.output)
    (hs : 16 ≤ room.scratch) {c d : UInt8} (hc : Field.isCryptChar c = true)
    (hd : Field.isCryptChar d = true) (rest : Bytes) :
    ∃ texts : List Bytes,
      hashChained room phrase (c :: d :: rest) = .ok (c :: d :: texts.flatten) ∧
      texts.length = min 16 (max 1 ((phrase.length + 7) / 8)) ∧
      (∀ text ∈ texts, text.length = 11) ∧
      (∀ (k : Nat) before text, ((c :: d :: rest) :: texts)[k]? = some before →
        texts[k]? = some text →
          hashSingle room ((phrase.drop (8 * k)).take 8) (before.take 2) =
            .ok (before.take 2 ++ text)) ∧
      hashSingle room phrase (c :: d :: rest) = .ok ((c :: d :: texts.flatten).take 13) ∧
      (phrase.length ≤ 8 → ∀ rest', hashSingle room phrase (c :: d :: rest') =
          .ok (c :: d :: texts.flatten) ∧
        hash room phrase (c :: d :: rest') = .ok (c :: d :: texts.flatten)) ∧
      hashChained room (phrase.take 128) (c :: d :: rest) =
        hashChained room phrase (c :: d :: rest) := by
  obtain ⟨salt, hsalt⟩ := exists_salt? hc hd rest
  have hsingle : hashLength + 1 ≤ room.output := Nat.le_trans (by decide) ho
  refine ⟨blockList maxBlocks salt phrase, ?chain, length_blockList _ _ _,
    fun _ => length_of_mem_blockList, ?links, ?start, ?short, ?long⟩
  case chain =>
    rw [hashChained_eq_ok ho hs hsalt, flatten_blockList]
    rfl
  case links =>
    intro k before text hbefore htext
    obtain ⟨s, hread, rfl⟩ := block_of_blockList hsalt hbefore htext
    rw [← salt?_take_two] at hread
    rw [hashSingle_eq_ok hsingle hs hread, List.take_take]
    rfl
  case start =>
    have hfirst : (blocks maxBlocks salt phrase).take 11 = block salt phrase :=
      take_blocks 15 salt phrase
    rw [hashSingle_eq_ok hsingle hs hsalt, flatten_blockList, ← hfirst]
    rfl
  case short =>
    intro hlength rest'
    -- the salt is the same whatever follows it
    have hsalt' : salt? (c :: d :: rest') = some salt := hsalt
    have hone : blocks maxBlocks salt phrase = block salt phrase :=
      blocks_of_length_le (n := 15) hlength
    rw [hash, if_neg fun h => Nat.not_lt.2 hlength h.1, hashChained_eq_ok ho hs hsalt',
      hashSingle_eq_ok hsingle hs hsalt', flatten_blockList, hone]
    exact ⟨rfl, rfl⟩
  case long =>
    have hcut : blocks maxBlocks salt (phrase.take 128) = blocks maxBlocks salt phrase :=
      blocks_take 16 salt phrase
    rw [hashChained_eq_ok ho hs hsalt, hashChained_eq_ok ho hs hsalt, hcut]

/-- A phrase of thirteen bytes makes two blocks. -/
theorem hashChained_links_two :
    Field.isCryptChar 'G'.toUInt8 = true ∧ Field.isCryptChar 'A'.toUInt8 = true ∧
      ∃ first second : Bytes,
        hashChained ⟨179, 16⟩ (Bytes.ascii "1234567890123") (Bytes.ascii "GA............") =
          .ok (Bytes.ascii "GA" ++ first ++ second) ∧
        hashSingle ⟨179, 16⟩ (Bytes.ascii "12345678") (Bytes.ascii "GA") =
          .ok (Bytes.ascii "GA" ++ first) ∧
        hashSingle ⟨179, 16⟩ (Bytes.ascii "90123") (first.take 2) =
          .ok (first.take 2 ++ second) := by
  have hG : Field.isCryptChar 'G'.toUInt8 = true := by decide
  have hA : Field.isCryptChar 'A'.toUInt8 = true := by decide
  obtain ⟨texts, hchain, hlength, -, hlinks, -⟩ :=
    hashChained_links ⟨179, 16⟩ (Bytes.ascii "1234567890123") (by decide) (by decide) hG hA
      (Bytes.ascii "............")
  refine ⟨hG, hA, ?_⟩
  match texts, hlength with
  | [first, second], _ =>
    have htexts : [first, second].flatten = first ++ second := by simp
    rw [htexts] at hchain
    exact ⟨first, second, hchain, hlinks 0 _ first rfl rfl, hlinks 1 first second rfl rfl⟩

end Descrypt

end PassHash
