import Mathlib.Algebra.Ring.Nat
import Mathlib.Data.List.Induction
import PassHash.Base64.LowFirst

/-!
# Base 64 with Low Bits First, Read Back

Numbers, groups and byte strings that are written with the least significant six bits first are
read back, and a text that is read is the one that would be written: each has a single spelling.

## Main statements

- `Base64.digits_of_number?`: the characters of a number are its digits
- `Base64.length_scatter`: how many characters a digest takes depends on the order alone
- `Base64.decodeLow?_encodeLow`: a written byte string is read back
- `Base64.encodeLow_of_decodeLow?`: only what is written is read
- `Base64.encodeLow_injective`: no two byte strings are written alike
-/

namespace PassHash

namespace Base64

open Alphabet

/-! ## Numbers -/

/-- A number is written with the characters that it was read from. -/
theorem digits_of_number? {s : Bytes} {v : Nat} (h : number? s = some v) :
    digits s.length v = s := by
  induction s generalizing v with
  | nil => rfl
  | cons c s ih =>
    simp only [number?, Option.bind_eq_bind, Option.bind_eq_some_iff, Option.pure_def,
      Option.some.injEq] at h
    obtain ⟨low, hlow, high, hhigh, rfl⟩ := h
    -- the first character holds the remainder, the others the quotient
    have hlt := value?_lt hlow
    have hmod : (low + 64 * high) % 64 = low := by omega
    have hdiv : (low + 64 * high) / 64 = high := by omega
    rw [List.length_cons, digits, hmod, hdiv, char_of_value? hlow, ih hhigh]

theorem number?_lt {s : Bytes} {v : Nat} (h : number? s = some v) : v < 64 ^ s.length := by
  induction s generalizing v with
  | nil =>
    cases h
    decide
  | cons c s ih =>
    simp only [number?, Option.bind_eq_bind, Option.bind_eq_some_iff, Option.pure_def,
      Option.some.injEq] at h
    obtain ⟨low, hlow, high, hhigh, rfl⟩ := h
    have hlt := value?_lt hlow
    have hhi := ih hhigh
    rw [List.length_cons, Nat.pow_succ]
    omega

theorem one_shiftLeft_six_mul (n : Nat) : 1 <<< (6 * n) = 64 ^ n := by
  rw [Nat.one_shiftLeft, Nat.pow_mul]

theorem number?_digits_of_lt {n v : Nat} (h : v < 64 ^ n) : number? (digits n v) = some v := by
  rw [number?_digits, one_shiftLeft_six_mul, Nat.mod_eq_of_lt h]

/-- Numbers that have the same digits, and none beyond them, are the same. -/
theorem digits_inj {n v v' : Nat} (hv : v < 64 ^ n) (hv' : v' < 64 ^ n)
    (h : digits n v = digits n v') : v = v' := by
  have hread := number?_digits_of_lt hv
  rw [h, number?_digits_of_lt hv', Option.some.injEq] at hread
  exact hread.symm

/-! ## Groups -/

theorem length_group (bs : Bytes) : (group bs).length = charsFor bs.length := length_digits ..

/-- How many characters an order of byte positions writes. -/
theorem length_scatter (order : List (List Nat)) (digest : Bytes) :
    (scatter order digest).length = (order.map fun positions => charsFor positions.length).sum := by
  simp [scatter, List.length_flatMap, length_group]

theorem bigEndian_append_singleton (bs : Bytes) (b : UInt8) :
    bigEndian (bs ++ [b]) = 256 * bigEndian bs + b.toNat := by
  simp [bigEndian]

theorem bigEndian_lt (bs : Bytes) : bigEndian bs < 256 ^ bs.length := by
  -- the last byte is the lowest, so the number grows at the end of the list
  induction bs using List.reverseRecOn with
  | nil => decide
  | append_singleton bs b ih =>
    have hb := b.toNat_lt
    rw [bigEndian_append_singleton, List.length_append, List.length_singleton, Nat.pow_succ]
    omega

@[simp] theorem length_lowBytes (n v : Nat) : (lowBytes n v).length = n := by
  induction n generalizing v with
  | zero => rfl
  | succ n ih => simp [lowBytes, ih]

theorem lowBytes_bigEndian (bs : Bytes) : lowBytes bs.length (bigEndian bs) = bs.reverse := by
  induction bs using List.reverseRecOn with
  | nil => rfl
  | append_singleton bs b ih =>
    have hb := b.toNat_lt
    have hmod : (256 * bigEndian bs + b.toNat) % 256 = b.toNat := by omega
    have hdiv : (256 * bigEndian bs + b.toNat) / 256 = bigEndian bs := by omega
    rw [bigEndian_append_singleton, List.length_append, List.length_singleton, lowBytes, hmod,
      hdiv, ih, UInt8.ofNat_toNat, List.reverse_append]
    rfl

theorem bigEndian_reverse_lowBytes (n v : Nat) :
    bigEndian (lowBytes n v).reverse = v % 256 ^ n := by
  induction n generalizing v with
  | zero => simp [lowBytes, bigEndian, Nat.mod_one]
  | succ n ih =>
    have hv : (UInt8.ofNat (v % 256)).toNat = v % 256 := by simp
    rw [lowBytes, List.reverse_cons, bigEndian_append_singleton, ih, hv, Nat.pow_succ,
      Nat.mul_comm (256 ^ n), Nat.mod_mul, Nat.add_comm]

theorem one_shiftLeft_eight_mul (n : Nat) : 1 <<< (8 * n) = 256 ^ n := by
  rw [Nat.one_shiftLeft, Nat.pow_mul]

/-- A group of one to three bytes is read back, the last byte first. -/
theorem decodeGroup?_group {bs : Bytes} (h0 : 0 < bs.length) (h3 : bs.length ≤ 3) :
    decodeGroup? (group bs) = some bs.reverse := by
  have hn : 6 * charsFor bs.length / 8 = bs.length := by
    unfold charsFor
    omega
  have hlt := bigEndian_lt bs
  -- the characters have at least as many bits as the bytes
  have hbig : bigEndian bs < 64 ^ charsFor bs.length := by
    apply Nat.lt_of_lt_of_le hlt
    rw [← one_shiftLeft_eight_mul, ← one_shiftLeft_six_mul, Nat.one_shiftLeft, Nat.one_shiftLeft]
    apply Nat.pow_le_pow_right (by decide)
    unfold charsFor
    omega
  simp only [decodeGroup?, group, number?_digits_of_lt hbig, length_digits, hn, Option.bind_eq_bind,
    Option.bind_some, one_shiftLeft_eight_mul]
  rw [if_neg (by omega), lowBytes_bigEndian]

/-- The characters of three bytes have the number of these, the last of them the lowest. -/
theorem number?_group (a b c : UInt8) :
    number? (group [c, b, a]) = some (a.toNat + 256 * b.toNat + 65536 * c.toNat) := by
  have hvalue : bigEndian [c, b, a] = a.toNat + 256 * b.toNat + 65536 * c.toNat := by
    simp only [bigEndian, List.foldl_cons, List.foldl_nil]
    omega
  have hlt : bigEndian [c, b, a] < 64 ^ 4 :=
    Nat.lt_of_lt_of_le (bigEndian_lt [c, b, a]) (by simp)
  have hdigits : group [c, b, a] = digits 4 (bigEndian [c, b, a]) := by
    simp [group, charsFor]
  rw [hdigits, number?_digits_of_lt hlt, hvalue]

/-- One to three bytes are those of one group only. -/
theorem group_injective {b b' : Bytes} (h0 : 0 < b.length) (h3 : b.length ≤ 3)
    (hlen : b'.length = b.length) (h : group b = group b') : b = b' := by
  have hread : decodeGroup? (group b) = some b.reverse := decodeGroup?_group h0 h3
  rw [h, decodeGroup?_group (by omega) (by omega), Option.some.injEq] at hread
  exact (List.reverse_inj.1 hread).symm

/-- A group that is read has the characters that would be written. -/
theorem group_of_decodeGroup? {s bs : Bytes} (hs : s.length ≤ 4) (h : decodeGroup? s = some bs) :
    group bs.reverse = s ∧ 0 < bs.length ∧ bs.length ≤ 3 := by
  simp only [decodeGroup?, Option.bind_eq_bind, Option.bind_eq_some_iff] at h
  obtain ⟨v, hv, h⟩ := h
  split at h
  · cases h
  · next hn =>
    rw [one_shiftLeft_eight_mul, not_or, Nat.not_le] at hn
    obtain ⟨hn, hlt⟩ := hn
    cases h
    -- a group of a single character has no byte and was refused
    have hchars : charsFor (6 * s.length / 8) = s.length := by
      unfold charsFor
      omega
    refine ⟨?_, ?_, ?_⟩
    · rw [group, List.length_reverse, length_lowBytes, bigEndian_reverse_lowBytes,
        Nat.mod_eq_of_lt hlt, hchars, digits_of_number? hv]
    · rw [length_lowBytes]
      omega
    · rw [length_lowBytes]
      omega

/-! ## Byte strings -/

theorem length_encodeLow (b : Bytes) : (encodeLow b).length = (4 * b.length + 2) / 3 := by
  fun_induction encodeLow b with
  | case1 a b c rest ih =>
    rw [List.length_append, length_group, ih]
    simp only [List.length_cons, List.length_nil, charsFor]
    omega
  | case2 a b => simp [length_group, charsFor]
  | case3 a => simp [length_group, charsFor]
  | case4 => rfl

theorem has_of_mem_encodeLow {b : Bytes} {c : UInt8} (h : c ∈ encodeLow b) :
    crypt.has c = true := by
  fun_induction encodeLow b with
  | case1 x y z rest ih =>
    rcases List.mem_append.1 h with h | h
    · exact has_of_mem_digits h
    · exact ih h
  | case2 x y => exact has_of_mem_digits h
  | case3 x => exact has_of_mem_digits h
  | case4 => simp at h

/-- Four characters are read as one group, whatever follows them. -/
theorem decodeLow?_append {s : Bytes} (hs : s.length = 4) (rest : Bytes) :
    decodeLow? (s ++ rest) =
      (decodeGroup? s).bind fun bytes => (decodeLow? rest).map (bytes ++ ·) := by
  match s, hs with
  | [a, b, c, d], _ =>
    show decodeLow? (a :: b :: c :: d :: rest) = _
    rw [decodeLow?]
    cases decodeGroup? [a, b, c, d] <;> cases decodeLow? rest <;> rfl

/-- Fewer characters are a group of their own. -/
theorem decodeLow?_of_length {s : Bytes} (h0 : 0 < s.length) (h4 : s.length < 4) :
    decodeLow? s = decodeGroup? s := by
  match s, h0, h4 with
  | [a], _, _ => rfl
  | [a, b], _, _ => rfl
  | [a, b, c], _, _ => rfl

/-- A written byte string is read back. -/
theorem decodeLow?_encodeLow (b : Bytes) : decodeLow? (encodeLow b) = some b := by
  fun_induction encodeLow b with
  | case1 x y z rest ih =>
    have hlen : (group [z, y, x]).length = 4 := by simp [length_group, charsFor]
    rw [decodeLow?_append hlen, decodeGroup?_group (by simp) (by simp), ih]
    rfl
  | case2 x y =>
    have hlen : (group [y, x]).length = 3 := by simp [length_group, charsFor]
    rw [decodeLow?_of_length (by omega) (by omega), decodeGroup?_group (by simp) (by simp)]
    rfl
  | case3 x =>
    have hlen : (group [x]).length = 2 := by simp [length_group, charsFor]
    rw [decodeLow?_of_length (by omega) (by omega), decodeGroup?_group (by simp) (by simp)]
    rfl
  | case4 => rfl

theorem encodeLow_injective : Function.Injective encodeLow := by
  intro b b' h
  have hread := decodeLow?_encodeLow b
  rw [h, decodeLow?_encodeLow, Option.some.injEq] at hread
  exact hread.symm

theorem encodeLow_of_length {b : Bytes} (h0 : 0 < b.length) (h3 : b.length ≤ 3) :
    encodeLow b = group b.reverse := by
  match b, h0, h3 with
  | [x], _, _ => rfl
  | [x, y], _, _ => rfl
  | [x, y, z], _, _ => rw [encodeLow, encodeLow, List.append_nil]; rfl

/-- A text that is read has the characters that would be written. -/
theorem encodeLow_of_decodeLow? {s b : Bytes} (h : decodeLow? s = some b) : encodeLow b = s := by
  fun_induction decodeLow? s generalizing b with
  | case1 =>
    cases h
    rfl
  | case2 x y z w rest ih =>
    simp only [Option.bind_eq_bind, Option.bind_eq_some_iff, Option.pure_def,
      Option.some.injEq] at h
    obtain ⟨bytes, hbytes, more, hmore, rfl⟩ := h
    obtain ⟨hgroup, -, -⟩ := group_of_decodeGroup? (by simp) hbytes
    -- four characters carry three bytes
    have hlen : bytes.length = 3 := by
      have hl := congrArg List.length hgroup
      rw [length_group, List.length_reverse] at hl
      simp only [charsFor, List.length_cons, List.length_nil] at hl
      omega
    match bytes, hlen with
    | [p, q, r], _ =>
      rw [List.cons_append, List.cons_append, List.cons_append, List.nil_append, encodeLow,
        ih hmore]
      exact congrArg (· ++ rest) hgroup
  | case3 short hnil hlong =>
    -- what is left is a group of its own, since it is not four characters and more
    have hlen : short.length ≤ 4 := by
      match short, hlong with
      | [], _ | [_], _ | [_, _], _ | [_, _, _], _ => simp
      | x :: y :: z :: w :: rest, hlong => exact absurd rfl (hlong x y z w rest)
    obtain ⟨hgroup, h0, h3⟩ := group_of_decodeGroup? hlen h
    rw [encodeLow_of_length h0 h3, hgroup]

end Base64

end PassHash
