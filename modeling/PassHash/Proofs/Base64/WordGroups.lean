import PassHash.Proofs.Base64.LowFirst
import PassHash.Proofs.Word

/-!
# Groups Collected in a Word

Byte strings with the least significant bits first can be read and written through a word of 32
bits. A reader shifts the characters of a group above each other into the word, takes the whole
bytes off its low end, and refuses the group if anything is left; after each group it looks whether
the bytes are too many. A writer shifts the bytes of a group into the word and takes characters
off. Both come to the byte strings and texts that the numbers of the groups give.

## Contents

- `WordGroups.collect`, `WordGroups.drain`: characters into a word, and bytes off it
- `WordGroups.readAtMost?`: a byte string of bounded length
- `WordGroups.pack`, `WordGroups.spell`: bytes into a word, and characters off it
- `WordGroups.write`: the characters of a byte string

## Main statements

- `WordGroups.readAtMost?_eq`, `WordGroups.write_eq`: through a word as by numbers
- `Base64.boundedCode_bijective`: the texts that are read are those that are written
-/

namespace PassHash

namespace Base64

open Alphabet

namespace WordGroups

/-! ## Reading -/

/-- A word of `bits` bits with the characters of a text above them, and how many bits these are
    together. -/
def collect : (bits : Nat) → (word : UInt32) → Bytes → Option (UInt32 × Nat)
  | bits, word, [] => some (word, bits)
  | bits, word, c :: rest => do
    let v ← crypt.value? c
    collect (bits + 6) (word ||| (UInt32.ofNat v <<< UInt32.ofNat bits)) rest

/-- The whole bytes among the `bits` low bits of a word, the lowest first, and the word without
    them. -/
def drain (bits : Nat) (word : UInt32) : Bytes × UInt32 :=
  if 8 ≤ bits then
    let (bytes, rest) := drain (bits - 8) (word >>> 8)
    (word.toUInt8 :: bytes, rest)
  else ([], word)

/-- The bytes of a group, unless it has no room for one or more bits than they need. -/
def readGroup? (chars : Bytes) : Option Bytes := do
  let (word, bits) ← collect 0 0 chars
  if bits < 12 then none
  else
    let (bytes, rest) := drain bits word
    if rest ≠ 0 then none else some bytes

/-- The bytes of the groups of a text, behind those that are read already. -/
def readFrom? (max : Nat) (out s : Bytes) : Option Bytes :=
  if _h : s = [] then some out
  else do
    let bytes ← readGroup? (s.take 4)
    if max < (out ++ bytes).length then none
    else readFrom? max (out ++ bytes) (s.drop 4)
termination_by s.length
decreasing_by
  have := List.length_pos_iff.2 _h
  rw [List.length_drop]
  omega

/-- The byte string of a text, unless it has more than `max` bytes. -/
def readAtMost? (max : Nat) (s : Bytes) : Option Bytes := readFrom? max [] s

/-! ## Writing -/

/-- A word shifted up by a byte that takes its place. -/
def pushByte (word : UInt32) (b : UInt8) : UInt32 := (word <<< 8) ||| b.toUInt32

/-- The word of a group of bytes, the last one highest. -/
def pack (bytes : Bytes) : UInt32 := bytes.reverse.foldl pushByte 0

/-- The characters of a word, the low bits first. -/
def spell : (n : Nat) → (word : UInt32) → Bytes
  | 0, _ => []
  | n + 1, word => crypt.char (word &&& 0x3f).toNat :: spell n (word >>> 6)

/-- The characters of a byte string. -/
def write (b : Bytes) : Bytes :=
  if _h : b = [] then []
  else spell ((8 * (b.take 3).length + 5) / 6) (pack (b.take 3)) ++ write (b.drop 3)
termination_by b.length
decreasing_by
  have := List.length_pos_iff.2 _h
  rw [List.length_drop]
  omega

/-! ## Words and numbers -/

/-- Bits above those of a word add to it. -/
theorem toNat_or_shiftLeft {word : UInt32} {v bits : Nat} (hword : word.toNat < 2 ^ bits)
    (hv : v < 64) (hbits : bits + 6 ≤ 32) :
    (word ||| (UInt32.ofNat v <<< UInt32.ofNat bits)).toNat = word.toNat + 2 ^ bits * v := by
  have hvalue : (UInt32.ofNat v).toNat = v :=
    UInt32.toNat_ofNat_of_lt' (Nat.lt_trans hv (by decide))
  -- the shifted bits stay in the word
  have hpow : 2 ^ bits * 64 ≤ 2 ^ 32 := by
    rw [show (64 : Nat) = 2 ^ 6 from rfl, ← Nat.pow_add]
    exact Nat.pow_le_pow_right (by decide) hbits
  have hlt : v <<< bits < 2 ^ 32 := by
    rw [Nat.shiftLeft_eq, Nat.mul_comm]
    exact Nat.lt_of_lt_of_le (Nat.mul_lt_mul_of_pos_left hv (Nat.pow_pos (by decide))) hpow
  rw [UInt32.toNat_or, Word.toNat_shiftLeft _ (by omega), hvalue, Nat.mod_eq_of_lt hlt,
    Nat.shiftLeft_eq, Nat.mul_comm v, Nat.or_comm, ← Nat.two_pow_add_eq_or_of_lt hword,
    Nat.add_comm]

/-- A word that collects characters grows by their number. -/
theorem collect_eq {bits : Nat} {word : UInt32} {s : Bytes} (hword : word.toNat < 2 ^ bits)
    (hbits : bits + 6 * s.length ≤ 32) :
    collect bits word s = (number? s).map fun v =>
      (UInt32.ofNat (word.toNat + 2 ^ bits * v), bits + 6 * s.length) := by
  -- the word stays below `2 ^ bits`, so each character goes above all that it holds
  induction s generalizing bits word with
  | nil => simp [collect, number?]
  | cons c s ih =>
    rw [List.length_cons] at hbits
    rw [collect, number?]
    cases hc : crypt.value? c with
    | none => rfl
    | some low =>
      have hlow := value?_lt hc
      have hsum := toNat_or_shiftLeft hword hlow (by omega)
      have hnext : (word ||| (UInt32.ofNat low <<< UInt32.ofNat bits)).toNat < 2 ^ (bits + 6) := by
        rw [hsum, Nat.pow_add]
        have := Nat.mul_le_mul_left (2 ^ bits) (Nat.le_of_lt_succ hlow)
        omega
      simp only [Option.bind_eq_bind, Option.bind_some]
      rw [ih hnext (by omega), hsum]
      cases number? s with
      | none => rfl
      | some high =>
        -- the later characters stand six bits higher
        have hvalue : word.toNat + 2 ^ bits * low + 2 ^ (bits + 6) * high =
            word.toNat + 2 ^ bits * (low + 64 * high) := by
          rw [Nat.pow_add, Nat.mul_add, Nat.mul_assoc, Nat.add_assoc]
        have hlength : bits + 6 + 6 * s.length = bits + 6 * (s.length + 1) := by omega
        simp only [Option.map_some, Option.bind_some, Option.pure_def, hvalue, hlength,
          List.length_cons]

theorem toNat_shiftRight_eight (word : UInt32) : (word >>> 8).toNat = word.toNat / 256 := by
  rw [UInt32.toNat_shiftRight]
  exact Nat.shiftRight_eq_div_pow ..

/-- The bytes that are taken off a word are the low bytes of its number. -/
theorem drain_eq (bits : Nat) (word : UInt32) :
    drain bits word =
      (lowBytes (bits / 8) word.toNat, UInt32.ofNat (word.toNat / 256 ^ (bits / 8))) := by
  fun_induction drain bits word with
  | case1 bits word hbits bytes rest hrest ih =>
    -- what is left of the word is the quotient, of which the other bytes are taken
    rw [hrest, Prod.mk.injEq] at ih
    obtain ⟨rfl, rfl⟩ := ih
    have hdiv : bits / 8 = (bits - 8) / 8 + 1 := by omega
    have hbyte : word.toUInt8 = UInt8.ofNat (word.toNat % 256) := by
      apply UInt8.toNat_inj.1
      simp
    rw [hdiv, lowBytes, hbyte, toNat_shiftRight_eight, Nat.pow_succ, Nat.mul_comm,
      Nat.div_div_eq_div_mul]
  | case2 bits word hbits =>
    have hdiv : bits / 8 = 0 := by omega
    simp [hdiv, lowBytes]

/-- A group of up to four characters is read through a word as by its number. -/
theorem readGroup?_eq {s : Bytes} (hs : s.length ≤ 4) : readGroup? s = decodeGroup? s := by
  rw [readGroup?, collect_eq (by decide) (by omega), decodeGroup?]
  cases hv : number? s with
  | none => rfl
  | some v =>
    have hlt := number?_lt hv
    have hword : v < 2 ^ 32 := by
      apply Nat.lt_of_lt_of_le hlt
      exact Nat.le_trans (Nat.pow_le_pow_right (by decide) hs) (by decide)
    simp only [Option.map_some, Option.bind_eq_bind, Option.bind_some, UInt32.toNat_zero,
      Nat.zero_add, Nat.pow_zero, Nat.one_mul, drain_eq,
      UInt32.toNat_ofNat_of_lt' hword]
    generalize hn : 6 * s.length / 8 = n
    -- fewer than two characters have no room for a byte
    have hnone : 6 * s.length < 12 ↔ n = 0 := by omega
    -- nothing is left of the word exactly if its bytes hold the number
    have hrest : UInt32.ofNat (v / 256 ^ n) = 0 ↔ v < 256 ^ n := by
      rw [← Nat.div_eq_zero_iff_lt (Nat.pow_pos (by decide)), ← UInt32.toNat_inj,
        UInt32.toNat_ofNat_of_lt' (Nat.lt_of_le_of_lt (Nat.div_le_self ..) hword),
        UInt32.toNat_zero]
    rw [one_shiftLeft_eight_mul]
    by_cases hzero : n = 0
    · rw [if_pos (hnone.2 hzero), if_pos (.inl hzero)]
    · rw [if_neg (mt hnone.1 hzero)]
      by_cases hfits : v < 256 ^ n
      · rw [if_neg (not_not.2 (hrest.2 hfits)), if_neg (by omega)]
      · rw [if_pos (mt hrest.1 hfits), if_pos (.inr (Nat.le_of_not_lt hfits))]

/-! ## Byte strings -/

/-- A text is read group by group. -/
theorem decodeLow?_eq_bind {s : Bytes} (hs : s ≠ []) :
    decodeLow? s = (decodeGroup? (s.take 4)).bind fun bytes =>
      (decodeLow? (s.drop 4)).map (bytes ++ ·) := by
  by_cases hlen : s.length < 4
  · rw [decodeLow?_of_length (List.length_pos_iff.2 hs) hlen, List.take_of_length_le (by omega),
      List.drop_eq_nil_of_le (by omega)]
    cases decodeGroup? s with
    | none => rfl
    | some bytes => simp [decodeLow?]
  · conv => lhs; rw [← List.take_append_drop 4 s]
    exact decodeLow?_append (by rw [List.length_take]; omega) _

/-- Bytes that are too many after one group are too many at the end. -/
theorem readFrom?_eq {max : Nat} {out s : Bytes} (hout : out.length ≤ max) :
    readFrom? max out s = (decodeLow? s).bind fun b =>
      if (out ++ b).length ≤ max then some (out ++ b) else none := by
  -- what has been read only grows, so a bound that is passed once stays passed
  fun_induction readFrom? max out s with
  | case1 out => simp [decodeLow?, hout]
  | case2 out s hs ih =>
    rw [readGroup?_eq (List.length_take_le ..), decodeLow?_eq_bind hs]
    cases decodeGroup? (s.take 4) with
    | none => rfl
    | some bytes =>
      simp only [Option.bind_eq_bind, Option.bind_some]
      by_cases hlen : max < (out ++ bytes).length
      · rw [if_pos hlen]
        cases decodeLow? (s.drop 4) with
        | none => rfl
        | some more =>
          have hlong : ¬(out ++ (bytes ++ more)).length ≤ max := by
            rw [← List.append_assoc, List.length_append]
            omega
          rw [Option.map_some, Option.bind_some, if_neg hlong]
      · rw [if_neg hlen, ih bytes (Nat.le_of_not_lt hlen)]
        cases decodeLow? (s.drop 4) with
        | none => rfl
        | some more => simp only [Option.map_some, Option.bind_some, List.append_assoc]

/-- Through a word the same byte strings are read, as far as they keep to the bound. -/
theorem readAtMost?_eq (max : Nat) (s : Bytes) :
    readAtMost? max s = (decodeLow? s).filter (·.length ≤ max) := by
  rw [readAtMost?, readFrom?_eq (Nat.zero_le _)]
  cases decodeLow? s with
  | none => rfl
  | some b => simp [Option.filter]

/-! ## Texts -/

theorem spell_eq (n : Nat) (word : UInt32) : spell n word = digits n word.toNat := by
  induction n generalizing word with
  | zero => rfl
  | succ n ih =>
    have hmask : (word &&& 0x3f).toNat = word.toNat % 64 := by
      rw [UInt32.toNat_and]
      exact Nat.and_two_pow_sub_one_eq_mod _ 6
    have hshift : (word >>> 6).toNat = word.toNat / 64 := by
      rw [UInt32.toNat_shiftRight]
      exact Nat.shiftRight_eq_div_pow ..
    rw [spell, digits, ih, hmask, hshift]

/-- Up to four bytes stay in the word. -/
theorem toNat_foldl_pushByte {bytes : Bytes} (hlen : bytes.length ≤ 4) :
    (bytes.foldl pushByte 0).toNat = bigEndian bytes := by
  -- from the end, as a fold goes: three bytes ahead of the last leave a place for it
  induction bytes using List.reverseRecOn with
  | nil => rfl
  | append_singleton bytes b ih =>
    rw [List.length_append, List.length_singleton] at hlen
    have hlt := bigEndian_lt bytes
    have hpow : 256 ^ bytes.length ≤ 256 ^ 3 := Nat.pow_le_pow_right (by decide) (by omega)
    have hshift : (bigEndian bytes <<< 8) % 2 ^ 32 = 2 ^ 8 * bigEndian bytes := by
      rw [Nat.shiftLeft_eq, Nat.mul_comm, Nat.mod_eq_of_lt (by omega)]
    have hword : ((bytes.foldl pushByte 0) <<< 8).toNat = 2 ^ 8 * bigEndian bytes := by
      rw [← hshift, ← ih (by omega)]
      exact Word.toNat_shiftLeft _ (by decide)
    rw [List.foldl_append, List.foldl_cons, List.foldl_nil, bigEndian_append_singleton, pushByte,
      UInt32.toNat_or, hword, UInt8.toNat_toUInt32]
    exact (Nat.two_pow_add_eq_or_of_lt b.toNat_lt _).symm

/-- A byte string is written group by group. -/
theorem encodeLow_eq_append {b : Bytes} (hb : b ≠ []) :
    encodeLow b = group (b.take 3).reverse ++ encodeLow (b.drop 3) := by
  match b, hb with
  | [x], _ => simp [encodeLow]
  | [x, y], _ => simp [encodeLow]
  | x :: y :: z :: rest, _ => simp [encodeLow]

/-- Through a word the same characters are written. -/
theorem write_eq (b : Bytes) : write b = encodeLow b := by
  fun_induction write b with
  | case1 => rfl
  | case2 b hb ih =>
    have hlen : (b.take 3).length ≤ 3 := List.length_take_le ..
    have hpack : (pack (b.take 3)).toNat = bigEndian (b.take 3).reverse := by
      apply toNat_foldl_pushByte
      rw [List.length_reverse]
      omega
    rw [ih, encodeLow_eq_append hb, spell_eq, hpack, group, charsFor, List.length_reverse]

end WordGroups

/-- A text of any length is read as a byte string of at most `max` bytes exactly if it is the text
    that is written for it, so that no two texts are read alike and every byte string within the
    bound is read back. The same is read and written through words of 32 bits and by the numbers of
    the groups. -/
theorem boundedCode_bijective (max : Nat) :
    (∀ s b, WordGroups.readAtMost? max s = some b ↔ s = WordGroups.write b ∧ b.length ≤ max) ∧
    (∀ s, WordGroups.readAtMost? max s = (decodeLow? s).filter (·.length ≤ max)) ∧
    (∀ b, WordGroups.write b = encodeLow b) := by
  refine ⟨fun s b => ?canonical, WordGroups.readAtMost?_eq max, WordGroups.write_eq⟩
  case canonical =>
    rw [WordGroups.readAtMost?_eq, WordGroups.write_eq, Option.filter_eq_some_iff,
      decide_eq_true_eq]
    constructor
    · rintro ⟨hread, hlen⟩
      exact ⟨(encodeLow_of_decodeLow? hread).symm, hlen⟩
    · rintro ⟨rfl, hlen⟩
      exact ⟨decodeLow?_encodeLow b, hlen⟩

end Base64

end PassHash
