import Mathlib.Data.List.GetD
import Mathlib.Logic.Function.Iterate
import Mathlib.Tactic.IntervalCases
import PassHash.Proofs.Bytes.Repetition
import PassHash.Proofs.Scheme.Bcrypt
import PassHash.Proofs.Word

/-!
# Key Words of Bcrypt

The key of a phrase is the first 72 bytes of the phrase and its terminator, repeated without end.
`$2b$` and `$2y$` take it as eighteen words with the most significant byte first. `$2x$` shifts each
byte in with its sign extended, which sets all bits of the word ahead of a byte from 0x80 on, unless
they are shifted out again. `$2a$` takes the words of `$2b$`, and changes one bit of the first word
of the first expansion if the words of `$2x$` are no others although some byte within a word has its
top bit set.

All of this can be found in one pass over the phrase, by a position that goes back to the start
behind the terminator. The pass adds up the top bits of inner bytes and the bits in which the two
kinds of words differ, and a carry out of the latter decides about the changed bit.

## Contents

- `Bcrypt.Keys.stream`, `Bcrypt.Keys.front`: the repeated phrase, and its first bytes
- `Bcrypt.Keys.Pass`, `Bcrypt.Keys.scheduled`: the key words in one pass
- `Bcrypt.Keys.HasInnerSign`: whether a byte within a word has its top bit set

## Main statements

- `Bcrypt.Keys.scheduled_eq`: one pass gives the key words
- `Bcrypt.Keys.countermeasure_front`: when a bit of the key is changed
- `Bcrypt.keys_of_phrase`: the key words of every phrase, and which phrases have the same digests
-/

namespace PassHash

namespace Bcrypt

namespace Keys

/-! ## Bytes of a phrase -/

/-- Byte `i` of a phrase and its terminator, over and over without end. -/
def stream (phrase : Bytes) : Nat → UInt8 := Bytes.repeated (phrase ++ [0])

/-- The first `n` bytes of a sequence. -/
def front (s : Nat → UInt8) (n : Nat) : Bytes := (List.range n).map s

theorem length_front (s : Nat → UInt8) (n : Nat) : (front s n).length = n := by
  simp [front]

theorem cycle_eq_front (phrase : Bytes) : cycle phrase = front (stream phrase) 72 :=
  Bytes.recycle_eq_map (by simp) 72

/-- Four bytes more are a word more. -/
theorem front_succ (s : Nat → UInt8) (n : Nat) :
    front s (4 * (n + 1)) =
      front s (4 * n) ++ [s (4 * n), s (4 * n + 1), s (4 * n + 2), s (4 * n + 3)] := by
  have hrange : List.range (4 * (n + 1)) =
      List.range (4 * n) ++ [4 * n, 4 * n + 1, 4 * n + 2, 4 * n + 3] := by
    rw [Nat.mul_succ, List.range_add]
    rfl
  rw [front, hrange, List.map_append]
  rfl

theorem dvd_length_front (s : Nat → UInt8) (n : Nat) : 4 ∣ (front s (4 * n)).length := by
  rw [length_front]
  exact Nat.dvd_mul_right 4 n

/-! ## Words of a sequence -/

/-- Word `k` of a sequence of bytes. -/
def word (widen : UInt8 → UInt32) (s : Nat → UInt8) (k : Nat) : UInt32 :=
  [s (4 * k), s (4 * k + 1), s (4 * k + 2), s (4 * k + 3)].foldl
    (fun w byte => (w <<< 8) ||| widen byte) 0

theorem words_append (widen : UInt8 → UInt32) {b : Bytes} (hb : 4 ∣ b.length) (rest : Bytes) :
    words widen (b ++ rest) = words widen b ++ words widen rest := by
  fun_induction words widen b with
  | case1 w x y z b ih =>
    rw [List.cons_append, List.cons_append, List.cons_append, List.cons_append, words,
      ih (Word.dvd_of_dvd_cons hb), List.cons_append]
  | case2 b hshort =>
    rw [Word.eq_nil_of_short hb hshort]
    rfl

theorem words_front (widen : UInt8 → UInt32) (s : Nat → UInt8) (n : Nat) :
    words widen (front s (4 * n)) = (List.range n).map (word widen s) := by
  induction n with
  | zero => rfl
  | succ n ih =>
    rw [front_succ, words_append _ (dvd_length_front s n), ih, List.range_succ, List.map_append]
    rfl

/-- Bytes that are shifted in as they are make the word that they are the bytes of. -/
theorem words_toUInt32 (b : Bytes) : words UInt8.toUInt32 b = Word.wordsBE32 b := by
  fun_induction words UInt8.toUInt32 b with
  | case1 w x y z b ih =>
    rw [Word.wordsBE32, ← ih, Word.ofBytes32_eq_foldl]
  | case2 b hshort => rw [Word.wordsBE32.eq_2 b hshort]

/-! ## Signs -/

/-- The top bit of a byte, at its place. -/
def sign (c : UInt8) : UInt32 := if 0x80 ≤ c then 0x80 else 0

theorem signExtend_eq (c : UInt8) :
    signExtend c = if c < 0x80 then c.toUInt32 else c.toUInt32 ||| 0xffffff00 := by
  have hall : ∀ n < 256, signExtend (UInt8.ofNat n) =
      if UInt8.ofNat n < 0x80 then (UInt8.ofNat n).toUInt32
      else (UInt8.ofNat n).toUInt32 ||| 0xffffff00 := by
    decide +kernel
  simpa using hall c.toNat c.toNat_lt

theorem signExtend_and (c : UInt8) : signExtend c &&& 0x80 = sign c := by
  have hall : ∀ n < 256, signExtend (UInt8.ofNat n) &&& 0x80 = sign (UInt8.ofNat n) := by
    decide +kernel
  simpa using hall c.toNat c.toNat_lt

theorem and_toUInt32 (c : UInt8) : (c &&& 0x80).toUInt32 = sign c := by
  have hall : ∀ n < 256, (UInt8.ofNat n &&& 0x80).toUInt32 = sign (UInt8.ofNat n) := by
    decide +kernel
  simpa using hall c.toNat c.toNat_lt

/-- The byte that was shifted in last has its top bit at the place of a byte's top bit. -/
theorem shifted_and (w : UInt32) (c : UInt8) : ((w <<< 8) ||| signExtend c) &&& 0x80 = sign c := by
  rw [← signExtend_and]
  apply UInt32.toBitVec_inj.1
  apply BitVec.eq_of_getLsbD_eq
  intro i hi
  interval_cases i <;> simp

theorem or_and_toUInt32 (b c d : UInt8) :
    ((b ||| c ||| d) &&& 0x80).toUInt32 = sign b ||| sign c ||| sign d := by
  have hsplit : (b ||| c ||| d) &&& 0x80 = (b &&& 0x80) ||| (c &&& 0x80) ||| (d &&& 0x80) := by
    apply UInt8.toBitVec_inj.1
    simp [BitVec.and_or_distrib_right]
  rw [hsplit, UInt8.toUInt32_or, UInt8.toUInt32_or, and_toUInt32, and_toUInt32, and_toUInt32]

theorem innerSigns_append {b : Bytes} (hb : 4 ∣ b.length) (w x y z : UInt8) :
    innerSigns (b ++ [w, x, y, z]) = innerSigns b ||| (sign x ||| sign y ||| sign z) := by
  fun_induction innerSigns b with
  | case1 w' x' y' z' b ih =>
    rw [List.cons_append, List.cons_append, List.cons_append, List.cons_append, innerSigns,
      ih (Word.dvd_of_dvd_cons hb)]
    exact (UInt32.or_assoc ..).symm
  | case2 b hshort =>
    rw [Word.eq_nil_of_short hb hshort, List.nil_append, innerSigns, or_and_toUInt32,
      UInt32.zero_or]
    exact UInt32.or_zero

/-- Whether some byte of a sequence that does not start a word has its top bit set. -/
def HasInnerSign (s : Nat → UInt8) (n : Nat) : Prop := ∃ i, i < n ∧ i % 4 ≠ 0 ∧ 0x80 ≤ s i

instance (s : Nat → UInt8) (n : Nat) : Decidable (HasInnerSign s n) :=
  inferInstanceAs (Decidable (∃ i, i < n ∧ i % 4 ≠ 0 ∧ 0x80 ≤ s i))

theorem hasInnerSign_succ (s : Nat → UInt8) (n : Nat) :
    HasInnerSign s (4 * (n + 1)) ↔ HasInnerSign s (4 * n) ∨
      0x80 ≤ s (4 * n + 1) ∨ 0x80 ≤ s (4 * n + 2) ∨ 0x80 ≤ s (4 * n + 3) := by
  constructor
  · rintro ⟨i, hi, hinner, hs⟩
    by_cases hlt : i < 4 * n
    · exact .inl ⟨i, hlt, hinner, hs⟩
    · -- of the last four bytes the first starts a word
      obtain rfl | rfl | rfl : i = 4 * n + 1 ∨ i = 4 * n + 2 ∨ i = 4 * n + 3 := by omega
      · exact .inr (.inl hs)
      · exact .inr (.inr (.inl hs))
      · exact .inr (.inr (.inr hs))
  · rintro (⟨i, hi, hinner, hs⟩ | hs | hs | hs)
    · exact ⟨i, by omega, hinner, hs⟩
    · exact ⟨_, by omega, by omega, hs⟩
    · exact ⟨_, by omega, by omega, hs⟩
    · exact ⟨_, by omega, by omega, hs⟩

theorem innerSigns_front (s : Nat → UInt8) (n : Nat) :
    innerSigns (front s (4 * n)) = if HasInnerSign s (4 * n) then 0x80 else 0 := by
  induction n with
  | zero => rfl
  | succ n ih =>
    have hiff := hasInnerSign_succ s n
    rw [front_succ, innerSigns_append (dvd_length_front s n), ih, sign, sign, sign]
    by_cases hbefore : HasInnerSign s (4 * n)
    · rw [if_pos hbefore, if_pos (hiff.2 (.inl hbefore))]
      split <;> split <;> split <;> rfl
    · simp only [hbefore, false_or, if_false, UInt32.zero_or] at hiff ⊢
      simp only [hiff]
      split <;> split <;> split <;> simp_all

/-! ## Differences -/

theorem foldl_or_eq_zero_iff (ws : List UInt32) (acc : UInt32) :
    ws.foldl (· ||| ·) acc = 0 ↔ acc = 0 ∧ ∀ w ∈ ws, w = 0 := by
  induction ws generalizing acc with
  | nil => simp
  | cons w ws ih => rw [List.foldl_cons, ih, UInt32.or_eq_zero_iff, List.forall_mem_cons, and_assoc]

/-- The bits in which two lists of words differ. -/
def difference (ws ws' : List UInt32) : UInt32 := (List.zipWith (· ^^^ ·) ws ws').foldl (· ||| ·) 0

theorem difference_eq_zero_iff {ws ws' : List UInt32} (h : ws.length = ws'.length) :
    difference ws ws' = 0 ↔ ws = ws' := by
  rw [difference, foldl_or_eq_zero_iff, and_iff_right rfl]
  induction ws generalizing ws' with
  | nil =>
    rw [List.eq_nil_of_length_eq_zero h.symm]
    simp
  | cons w ws ih =>
    cases ws' with
    | nil => cases h
    | cons w' ws' =>
      rw [List.zipWith_cons_cons, List.forall_mem_cons, ih (Nat.succ.inj h),
        UInt32.xor_eq_zero_iff, List.cons.injEq]

/-- The two halves of a word put into one. -/
theorem halves_eq_zero_iff (d : UInt32) : (d ||| (d >>> 16)) &&& 0xffff = 0 ↔ d = 0 := by
  have hd := d.toNat_lt
  have hshift : (d >>> 16).toNat = d.toNat >>> 16 := Word.toNat_shiftRight d (n := 16) (by decide)
  have hlow : ((d ||| (d >>> 16)) &&& 0xffff).toNat =
      d.toNat % 2 ^ 16 ||| d.toNat / 2 ^ 16 % 2 ^ 16 := by
    rw [UInt32.toNat_and, UInt32.toNat_or, ← Nat.or_mod_two_pow, ← Nat.and_two_pow_sub_one_eq_mod,
      ← Nat.shiftRight_eq_div_pow, ← hshift]
    rfl
  rw [← UInt32.toNat_inj, hlow, ← UInt32.toNat_inj]
  show _ = 0 ↔ _ = 0
  rw [Nat.or_eq_zero_iff]
  omega

/-- A mask for bit 16 is empty where that bit is set. -/
theorem not_and_bit (x : UInt32) (h : x.toNat / 65536 % 2 = 1) : ~~~x &&& 0x10000 = 0 := by
  have hbit : x.toBitVec.getLsbD 16 = true := by
    rw [BitVec.getLsbD, Nat.testBit_eq_decide_div_mod_eq]
    exact decide_eq_true h
  apply UInt32.toBitVec_inj.1
  apply BitVec.eq_of_getLsbD_eq
  intro i hi
  by_cases h : i = 16
  · subst h
    simp [hbit]
  · interval_cases i <;> simp_all

/-- The sum of 16 bits and the largest number of 16 bits has bit 16 set exactly if any of the bits
    was. -/
theorem carry_eq (d : UInt32) :
    ~~~(((d ||| (d >>> 16)) &&& 0xffff) + 0xffff) &&& 0x10000 = if d = 0 then 0x10000 else 0 := by
  have hiff := halves_eq_zero_iff d
  have hlt : ((d ||| (d >>> 16)) &&& 0xffff).toNat ≤ 0xffff := by
    rw [UInt32.toNat_and]
    exact Nat.and_le_right
  generalize (d ||| (d >>> 16)) &&& 0xffff = e at hiff hlt ⊢
  split
  · next hd =>
    rw [hiff.2 hd]
    decide
  · next hd =>
    have hne : e.toNat ≠ 0 := fun he => hd (hiff.1 (UInt32.toNat_inj.1 he))
    apply not_and_bit
    rw [UInt32.toNat_add]
    show (e.toNat + 0xffff) % 2 ^ 32 / 65536 % 2 = 1
    omega

theorem length_words_front (widen : UInt8 → UInt32) (s : Nat → UInt8) (n : Nat) :
    (words widen (front s (4 * n))).length = n := by
  rw [words_front, List.length_map, List.length_range]

/-- A bit of the key is changed exactly if sign extension makes no difference to any word and yet a
    byte within a word has its top bit set. -/
theorem countermeasure_front (s : Nat → UInt8) (n : Nat) :
    countermeasure (front s (4 * n)) =
      if words UInt8.toUInt32 (front s (4 * n)) = words signExtend (front s (4 * n)) ∧
          HasInnerSign s (4 * n) then 0x10000 else 0 := by
  have hdifference := difference_eq_zero_iff
    ((length_words_front UInt8.toUInt32 s n).trans (length_words_front signExtend s n).symm)
  have hcarry := carry_eq (difference (words UInt8.toUInt32 (front s (4 * n)))
    (words signExtend (front s (4 * n))))
  simp only [hdifference] at hcarry
  show (innerSigns (front s (4 * n)) <<< 9) &&& (~~~(((difference _ _ ||| difference _ _ >>> 16) &&&
    0xffff) + 0xffff) &&& 0x10000) = _
  rw [hcarry, innerSigns_front, ite_and]
  by_cases hsame : words UInt8.toUInt32 (front s (4 * n)) = words signExtend (front s (4 * n))
  · rw [if_pos hsame, if_pos hsame]
    split
    · rfl
    · rfl
  · rw [if_neg hsame, if_neg hsame, UInt32.and_zero]

/-! ## One pass -/

/-- A word of a key while its bytes are shifted in: the position of the next byte, the word from
    bytes as they are and from sign-extended ones, and the top bits of inner bytes. -/
structure Cursor where
  position : Nat
  plain : UInt32
  extended : UInt32
  signs : UInt32

/-- The word with its `j`-th byte. The phrase starts again behind its terminator. -/
def Cursor.next (phrase : Bytes) (j : Nat) (c : Cursor) : Cursor :=
  let byte := phrase.getD c.position 0
  let extended := (c.extended <<< 8) ||| signExtend byte
  { position := if phrase.length ≤ c.position then 0 else c.position + 1
    plain := (c.plain <<< 8) ||| byte.toUInt32
    extended := extended
    signs := if j = 0 then c.signs else c.signs ||| (extended &&& 0x80) }

/-- What a pass over a phrase has come to: the position of the next byte, the words of both kinds,
    the top bits of inner bytes, and the bits in which the two kinds differ. -/
structure Pass where
  position : Nat
  plain : List UInt32
  extended : List UInt32
  signs : UInt32
  diff : UInt32

namespace Pass

/-- Ahead of the first word. -/
def start : Pass := ⟨0, [], [], 0, 0⟩

/-- After one more word. -/
def next (phrase : Bytes) (p : Pass) : Pass :=
  let c := [0, 1, 2, 3].foldl (fun c j => Cursor.next phrase j c) ⟨p.position, 0, 0, p.signs⟩
  ⟨c.position, p.plain ++ [c.plain], p.extended ++ [c.extended], c.signs,
    p.diff ||| (c.plain ^^^ c.extended)⟩

/-- After a number of words, in terms of the repeated phrase. -/
def after (phrase : Bytes) (n : Nat) : Pass :=
  let key := front (stream phrase) (4 * n)
  ⟨4 * n % (phrase.length + 1), words UInt8.toUInt32 key, words signExtend key, innerSigns key,
    difference (words UInt8.toUInt32 key) (words signExtend key)⟩

end Pass

/-- The key words of a phrase for a variant, from one pass over it. -/
def scheduled (v : Variant) (phrase : Bytes) : Keys :=
  let p := (Pass.next phrase)^[18] .start
  let words := if v = .x then p.extended else p.plain
  let diff := ((p.diff ||| (p.diff >>> 16)) &&& 0xffff) + 0xffff
  let safety : UInt32 := if v = .a then 0x10000 else 0
  ⟨words, flipFirst ((p.signs <<< 9) &&& (~~~diff &&& safety)) words⟩

/-- Going back to the start behind the terminator is counting around. -/
theorem position_next (m i : Nat) :
    (if m ≤ i % (m + 1) then 0 else i % (m + 1) + 1) = (i + 1) % (m + 1) := by
  have hlt : i % (m + 1) < m + 1 := Nat.mod_lt i (Nat.succ_pos m)
  rw [← Nat.mod_add_mod]
  split
  · next hle =>
    rw [show i % (m + 1) = m by omega, Nat.mod_self]
  · next hgt => rw [Nat.mod_eq_of_lt (a := i % (m + 1) + 1) (by omega)]

/-- Behind a phrase its terminator is read. -/
theorem getD_position (phrase : Bytes) (i : Nat) :
    phrase.getD (i % (phrase.length + 1)) 0 = stream phrase i := by
  have hlt : i % (phrase.length + 1) < phrase.length + 1 := Nat.mod_lt i (Nat.succ_pos _)
  rw [stream, Bytes.repeated, List.length_append, List.length_singleton]
  generalize i % (phrase.length + 1) = j at hlt ⊢
  rw [List.getD_eq_getElem?_getD, List.getD_eq_getElem?_getD]
  by_cases hj : j < phrase.length
  · rw [List.getElem?_append_left hj]
  · rw [List.getElem?_append_right (by omega), List.getElem?_eq_none (by omega),
      show j - phrase.length = 0 by omega]
    rfl

theorem Cursor.next_eq (phrase : Bytes) (j i : Nat) (plain extended signs : UInt32) :
    Cursor.next phrase j ⟨i % (phrase.length + 1), plain, extended, signs⟩ =
      ⟨(i + 1) % (phrase.length + 1), (plain <<< 8) ||| (stream phrase i).toUInt32,
        (extended <<< 8) ||| signExtend (stream phrase i),
        if j = 0 then signs else signs ||| sign (stream phrase i)⟩ := by
  simp only [Cursor.next, getD_position, position_next, shifted_and]

theorem difference_append {ws ws' : List UInt32} (h : ws.length = ws'.length) (w w' : UInt32) :
    difference (ws ++ [w]) (ws' ++ [w']) = difference ws ws' ||| (w ^^^ w') := by
  rw [difference, List.zipWith_append h, List.foldl_append]
  rfl

/-- A word more of a pass is a word more of the key. -/
theorem Pass.next_after (phrase : Bytes) (n : Nat) :
    next phrase (after phrase n) = after phrase (n + 1) := by
  have hlength := (length_words_front UInt8.toUInt32 (stream phrase) n).trans
    (length_words_front signExtend (stream phrase) n).symm
  simp only [after, front_succ, words_append _ (dvd_length_front (stream phrase) n),
    innerSigns_append (dvd_length_front (stream phrase) n), words, difference_append hlength]
  simp only [next, List.foldl_cons, List.foldl_nil, Cursor.next_eq, UInt32.or_assoc,
    OfNat.ofNat_ne_zero, one_ne_zero, if_false, if_true, Nat.add_assoc, Nat.reduceAdd, Nat.mul_succ]

theorem Pass.iterate_next (phrase : Bytes) (n : Nat) :
    (next phrase)^[n] start = after phrase n := by
  induction n with
  | zero => simp [start, after, front, words, innerSigns, difference]
  | succ n ih => rw [Function.iterate_succ_apply', ih, next_after]

theorem flipFirst_zero (ws : List UInt32) : flipFirst 0 ws = ws := by
  cases ws with
  | nil => rfl
  | cons w ws => rw [flipFirst, UInt32.xor_zero]

/-- One pass over a phrase gives its key words. -/
theorem scheduled_eq (v : Variant) (phrase : Bytes) : scheduled v phrase = ofPhrase v phrase := by
  have hcycle : front (stream phrase) (4 * 18) = cycle phrase := (cycle_eq_front phrase).symm
  simp only [scheduled, Pass.iterate_next, Pass.after, hcycle]
  cases v with
  | a => rfl
  | b => simp [ofPhrase, flipFirst_zero]
  | x => simp [ofPhrase, flipFirst_zero]
  | y => simp [ofPhrase, flipFirst_zero]

/-! ## Key words of each variant -/

/-- The words of a key with the sign of every byte extended. -/
def signed (s : Nat → UInt8) : List UInt32 := (List.range 18).map (word signExtend s)

theorem words_signExtend_cycle (phrase : Bytes) :
    words signExtend (cycle phrase) = signed (stream phrase) := by
  rw [cycle_eq_front]
  exact words_front signExtend (stream phrase) 18

theorem dvd_length_cycle (phrase : Bytes) : 4 ∣ (cycle phrase).length := by
  rw [cycle_eq_front, length_front]
  decide

/-- The words of a key have its bytes. -/
theorem bytes_words (phrase : Bytes) :
    (words UInt8.toUInt32 (cycle phrase)).flatMap Word.bytesBE32 = cycle phrase := by
  rw [words_toUInt32, Word.flatMap_wordsBE32 (dvd_length_cycle phrase)]

/-- Two kinds of words are the same exactly if the one has the bytes of the other. -/
theorem bytes_signed_eq_iff (phrase : Bytes) :
    (signed (stream phrase)).flatMap Word.bytesBE32 = cycle phrase ↔
      words UInt8.toUInt32 (cycle phrase) = words signExtend (cycle phrase) := by
  rw [words_signExtend_cycle, words_toUInt32]
  constructor
  · intro h
    rw [← h, Word.wordsBE32_flatMap]
  · intro h
    rw [← h, Word.flatMap_wordsBE32 (dvd_length_cycle phrase)]

theorem flipFirst_eq (mask : UInt32) (ws : List UInt32) :
    flipFirst mask ws = ws.modifyHead (· ^^^ mask) := by
  cases ws with
  | nil => rfl
  | cons w ws => rfl

/-- The key of the first expansion of `$2a$`. -/
theorem initial_a (phrase : Bytes) :
    (ofPhrase .a phrase).initial =
      if (signed (stream phrase)).flatMap Word.bytesBE32 = cycle phrase ∧
          HasInnerSign (stream phrase) 72 then
        (Word.wordsBE32 (cycle phrase)).modifyHead (· ^^^ 0x10000)
      else Word.wordsBE32 (cycle phrase) := by
  have hmask := countermeasure_front (stream phrase) 18
  simp only [Nat.reduceMul, ← cycle_eq_front, ← bytes_signed_eq_iff] at hmask
  show flipFirst (countermeasure (cycle phrase)) (words UInt8.toUInt32 (cycle phrase)) = _
  rw [hmask, words_toUInt32]
  split
  · rw [flipFirst_eq]
  · rw [flipFirst_zero]

/-! ## Phrases with the same keys -/

theorem stream_mem (phrase : Bytes) (i : Nat) : stream phrase i = 0 ∨ stream phrase i ∈ phrase := by
  rw [← getD_position]
  by_cases hi : i % (phrase.length + 1) < phrase.length
  · exact .inr (by
      rw [List.getD_eq_getElem phrase 0 hi]
      exact List.getElem_mem hi)
  · exact .inl (List.getD_eq_default phrase 0 (by omega))

/-- Without a top bit there is nothing to extend. -/
theorem words_signExtend_of_low {b : Bytes} (h : ∀ c ∈ b, c < 0x80) :
    words signExtend b = words UInt8.toUInt32 b := by
  fun_induction words UInt8.toUInt32 b with
  | case1 w x y z b ih =>
    simp only [List.forall_mem_cons] at h
    obtain ⟨hw, hx, hy, hz, hb⟩ := h
    rw [words, ih hb]
    simp only [List.foldl_cons, List.foldl_nil, signExtend_eq, hw, hx, hy, hz, if_true]
  | case2 b hshort => rw [words.eq_2 signExtend b hshort]

/-- The variants agree about phrases without top bits. -/
theorem ofPhrase_of_low {phrase : Bytes} (h : ∀ c ∈ phrase, c < 0x80) (v : Variant) :
    ofPhrase v phrase = ofPhrase .b phrase := by
  have hstream : ∀ i, stream phrase i < 0x80 := fun i => by
    obtain hzero | hmem := stream_mem phrase i
    · rw [hzero]
      decide
    · exact h _ hmem
  have hcycle : ∀ c ∈ cycle phrase, c < 0x80 := by
    rw [cycle_eq_front, front, List.forall_mem_map]
    exact fun i _ => hstream i
  have hinner : ¬HasInnerSign (stream phrase) 72 := fun ⟨i, _, _, hi⟩ =>
    UInt8.not_le.2 (hstream i) hi
  cases v with
  | a =>
    have hinitial := initial_a phrase
    rw [if_neg fun hboth => hinner hboth.2, ← words_toUInt32] at hinitial
    exact congrArg (Keys.mk _) hinitial
  | b => rfl
  | x => simp only [ofPhrase, words_signExtend_of_low hcycle]
  | y => rfl

theorem ofPhrase_congr {phrase phrase' : Bytes} (h : cycle phrase' = cycle phrase) (v : Variant) :
    ofPhrase v phrase' = ofPhrase v phrase := by
  simp only [ofPhrase, h]

/-- Of a phrase of 72 bytes or more the first 72 count. -/
theorem cycle_take_append {phrase : Bytes} (h : 72 ≤ phrase.length) (rest : Bytes) :
    cycle (phrase.take 72 ++ rest) = cycle phrase := by
  rw [cycle_eq_front, cycle_eq_front, front, front]
  refine List.map_congr_left fun i hi => ?_
  rw [stream, stream, List.append_assoc]
  exact Bytes.repeated_take_append h (List.mem_range.1 hi)

end Keys

/-! ## Main result -/

theorem digest_congr {s : Setting} {phrase phrase' : Bytes}
    (h : Keys.ofPhrase s.variant phrase' = Keys.ofPhrase s.variant phrase) :
    digest s phrase' = digest s phrase := by
  simp only [digest, h]

/-- The variant of a setting makes no difference to a digest but for the keys. -/
theorem digest_variant {v : Variant} {cost : Nat} {salt phrase : Bytes}
    (h : ∀ c ∈ phrase, c < 0x80) : digest ⟨v, cost, salt⟩ phrase = digest ⟨.b, cost, salt⟩ phrase := by
  simp only [digest, Keys.ofPhrase_of_low h v]

theorem hash_congr {phrase phrase' : Bytes} (h : Keys.cycle phrase' = Keys.cycle phrase)
    (room : Room) (setting : Bytes) : hash room phrase' setting = hash room phrase setting := by
  simp only [hash, digest_congr (Keys.ofPhrase_congr h _)]

/-- The keys of a phrase, from the first 72 bytes of the phrase and its terminator, repeated without
    end. They are the same whether taken from these bytes or by one pass over the phrase. `$2b$` and
    `$2y$` take the bytes as they are, `$2x$` shifts each byte in with its sign extended, and `$2a$`
    changes bit 16 of the first word of the first expansion if the words of `$2x$` have just these
    bytes and yet a byte within a word has its top bit set. So the variants agree about phrases
    without top bits, and what follows the 72 bytes does not matter. -/
theorem keys_of_phrase (phrase : Bytes) :
    let key := (List.range 72).map (Bytes.repeated (phrase ++ [0]))
    let signed := Keys.signed (Bytes.repeated (phrase ++ [0]))
    (∀ v, Keys.scheduled v phrase = Keys.ofPhrase v phrase) ∧
    (∀ v, v = .b ∨ v = .y →
      (Keys.ofPhrase v phrase).expanded.flatMap Word.bytesBE32 = key ∧
      (Keys.ofPhrase v phrase).initial.flatMap Word.bytesBE32 = key) ∧
    ((Keys.ofPhrase .a phrase).expanded.flatMap Word.bytesBE32 = key ∧
      (Keys.ofPhrase .a phrase).initial =
        if signed.flatMap Word.bytesBE32 = key ∧
            ∃ i, i < 72 ∧ i % 4 ≠ 0 ∧ 0x80 ≤ Bytes.repeated (phrase ++ [0]) i then
          (Word.wordsBE32 key).modifyHead (· ^^^ (1 : UInt32) <<< 16)
        else Word.wordsBE32 key) ∧
    ((Keys.ofPhrase .x phrase).expanded = signed ∧ (Keys.ofPhrase .x phrase).initial = signed) ∧
    ((∀ c ∈ phrase, c < 0x80) → ∀ cost salt, ∃ text : Bytes, text.length = 31 ∧
      ∀ v room setting, hashLength + 1 ≤ room.output → 144 ≤ room.scratch →
        parse? setting = some ⟨v, cost, salt⟩ →
          hash room phrase setting = .ok (Setting.text ⟨v, cost, salt⟩ ++ text)) ∧
    (∀ phrase', (List.range 72).map (Bytes.repeated (phrase' ++ [0])) = key →
      ∀ room setting, hash room phrase' setting = hash room phrase setting) ∧
    (72 ≤ phrase.length → ∀ rest room setting,
      hash room (phrase.take 72 ++ rest) setting = hash room phrase setting) := by
  have hkey : (List.range 72).map (Bytes.repeated (phrase ++ [0])) = Keys.cycle phrase :=
    (Keys.cycle_eq_front phrase).symm
  have hbytes := Keys.bytes_words phrase
  intro key signed
  simp only [key, signed, hkey]
  refine ⟨fun v => Keys.scheduled_eq v phrase, ?asis, ⟨hbytes, Keys.initial_a phrase⟩, ?signs, ?low,
    ?same, fun hlong rest room setting => hash_congr (Keys.cycle_take_append hlong rest) room setting⟩
  case asis =>
    rintro v (rfl | rfl)
    · exact ⟨hbytes, hbytes⟩
    · exact ⟨hbytes, hbytes⟩
  case signs => exact ⟨Keys.words_signExtend_cycle phrase, Keys.words_signExtend_cycle phrase⟩
  case low =>
    intro hlow cost salt
    refine ⟨_, length_digest_text ⟨.b, cost, salt⟩ phrase, fun v room setting hout hwork hread => ?_⟩
    rw [hash_of_parse? hout hwork hread, digest_variant hlow]
  case same =>
    intro phrase' hsame
    exact hash_congr ((Keys.cycle_eq_front phrase').trans hsame)

/-- Two variants agree about a phrase without top bits, and about that phrase said twice with its
    terminator in between. For two bytes of all bits and one with the top bit, `$2x$` has the words
    of `$2y$`, so `$2a$` changes a bit. -/
theorem keys_of_phrase_topBits :
    (∃ text : Bytes, text.length = 31 ∧
      hash ⟨384, 256⟩ (Bytes.ascii "U*U") (Bytes.ascii "$2a$05$CCCCCCCCCCCCCCCCCCCCC.") =
        .ok (Bytes.ascii "$2a$05$CCCCCCCCCCCCCCCCCCCCC." ++ text) ∧
      hash ⟨384, 256⟩ (Bytes.ascii "U*U") (Bytes.ascii "$2x$05$CCCCCCCCCCCCCCCCCCCCC.") =
        .ok (Bytes.ascii "$2x$05$CCCCCCCCCCCCCCCCCCCCC." ++ text)) ∧
    hash ⟨384, 256⟩ (Bytes.ascii "U*U" ++ [0] ++ Bytes.ascii "U*U")
        (Bytes.ascii "$2a$05$CCCCCCCCCCCCCCCCCCCCC.") =
      hash ⟨384, 256⟩ (Bytes.ascii "U*U") (Bytes.ascii "$2a$05$CCCCCCCCCCCCCCCCCCCCC.") ∧
    (Keys.ofPhrase .y [0xff, 0xff, 0xa3]).initial.flatMap Word.bytesBE32 =
      (List.range 72).map (Bytes.repeated [0xff, 0xff, 0xa3, 0]) ∧
    (Keys.ofPhrase .a [0xff, 0xff, 0xa3]).initial =
      (Word.wordsBE32 ((List.range 72).map (Bytes.repeated [0xff, 0xff, 0xa3, 0]))).modifyHead
        (· ^^^ (1 : UInt32) <<< 16) ∧
    hash ⟨384, 256⟩ (List.replicate 72 'a'.toUInt8 ++ Bytes.ascii "chars after 72 are ignored")
        (Bytes.ascii "$2a$05$abcdefghijklmnopqrstuu") =
      hash ⟨384, 256⟩ (List.replicate 72 'a'.toUInt8)
        (Bytes.ascii "$2a$05$abcdefghijklmnopqrstuu") := by
  obtain ⟨-, -, -, -, hlow, hsame, -⟩ := keys_of_phrase (Bytes.ascii "U*U")
  obtain ⟨-, hasis, ⟨-, hinitial⟩, -⟩ := keys_of_phrase [0xff, 0xff, 0xa3]
  obtain ⟨-, -, -, -, -, -, hlong⟩ := keys_of_phrase (List.replicate 72 'a'.toUInt8)
  refine ⟨?agree, hsame _ (by decide +kernel) _ _, (hasis .y (.inr rfl)).2,
    hinitial.trans (if_pos (by decide +kernel)),
    hlong (Nat.le_of_eq List.length_replicate.symm) _ _ _⟩
  case agree =>
    obtain ⟨text, htext, hhash⟩ := hlow (by decide +kernel) 5
      ((List.replicate 5 [0x10, 0x41, 0x04]).flatten ++ [0x10])
    refine ⟨text, htext, ?_, ?_⟩
    · rw [hhash .a _ _ (by decide) (by decide) (by decide +kernel)]
      exact congrArg (fun t => Except.ok (t ++ text)) (by decide +kernel)
    · rw [hhash .x _ _ (by decide) (by decide) (by decide +kernel)]
      exact congrArg (fun t => Except.ok (t ++ text)) (by decide +kernel)

end Bcrypt

end PassHash
