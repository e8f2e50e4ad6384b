import Mathlib.Algebra.Ring.Nat
import PassHash.Proofs.Base64.HighFirst

/-!
# The Alphabet of Bcrypt, Byte by Byte

Bcrypt needs no number wider than a byte for its base 64. The six bits of a character are cut out of
one byte or put together from two neighbours by masks and shifts, and a byte is put together from
two neighbouring characters when it is read. Both ways the work can stop within a group: a written
text ends with its bytes, and a reader looks at no more characters than its bytes need.

## Contents

- `Base64.ByteSteps.encode?`, `Base64.ByteSteps.decode?`: writing, and reading into a number of bytes
- `Base64.ByteSteps.tail?`: the canonical form of a last character

## Main statements

- `Base64.ByteSteps.encode?_eq`, `Base64.ByteSteps.decode?_eq`, `Base64.ByteSteps.tail?_eq`: the same
  is written and read by the numbers of the groups
- `Base64.ByteSteps.decode?_encodeHigh_append`: what follows a written byte string is not read
-/

namespace PassHash

namespace Base64

namespace ByteSteps

open Alphabet

/-! ## Writing -/

/-- The six-bit values of a byte string, each in a byte. -/
def sixes : Bytes → Bytes
  | x :: y :: z :: rest =>
    (x >>> 2) :: (((x &&& 0x03) <<< 4) ||| (y >>> 4)) :: (((y &&& 0x0f) <<< 2) ||| (z >>> 6)) ::
      (z &&& 0x3f) :: sixes rest
  | [x, y] => [x >>> 2, ((x &&& 0x03) <<< 4) ||| (y >>> 4), (y &&& 0x0f) <<< 2]
  | [x] => [x >>> 2, (x &&& 0x03) <<< 4]
  | [] => []

/-- The characters of a byte string. There are none if a value is not below 64. -/
def encode? (b : Bytes) : Option Bytes := (sixes b).mapM fun v => bcrypt.chars[v.toNat]?

/-! ## Reading -/

/-- The value of a character, by the range that it is in. -/
def value? (c : UInt8) : Option UInt8 :=
  if c = '.'.toUInt8 then some 0
  else if c = '/'.toUInt8 then some 1
  else if 'A'.toUInt8 ≤ c ∧ c ≤ 'Z'.toUInt8 then some (c - 'A'.toUInt8 + 2)
  else if 'a'.toUInt8 ≤ c ∧ c ≤ 'z'.toUInt8 then some (c - 'a'.toUInt8 + 28)
  else if '0'.toUInt8 ≤ c ∧ c ≤ '9'.toUInt8 then some (c - '0'.toUInt8 + 54)
  else none

/-- The value of the next character, and the characters after it. -/
def next? : Bytes → Option (UInt8 × Bytes)
  | [] => none
  | c :: s => (value? c).map (·, s)

/-- The first byte of a group, from its first two values. -/
def first (p q : UInt8) : UInt8 := (p <<< 2) ||| ((q &&& 0x30) >>> 4)

/-- The second byte of a group. -/
def second (q r : UInt8) : UInt8 := ((q &&& 0x0f) <<< 4) ||| ((r &&& 0x3c) >>> 2)

/-- The third byte of a group. -/
def third (r s : UInt8) : UInt8 := ((r &&& 0x03) <<< 6) ||| s

/-- A number of bytes, read from no more characters than they need. -/
def decode? : Nat → Bytes → Option Bytes
  | 0, _ => some []
  | 1, s => do
    let (p, s) ← next? s
    let (q, _) ← next? s
    pure [first p q]
  | 2, s => do
    let (p, s) ← next? s
    let (q, s) ← next? s
    let (r, _) ← next? s
    pure [first p q, second q r]
  | n + 3, s => do
    let (p, s) ← next? s
    let (q, s) ← next? s
    let (r, s) ← next? s
    let (t, s) ← next? s
    let rest ← decode? n s
    pure (first p q :: second q r :: third r t :: rest)

/-- The character with the same top two bits and the rest zero. -/
def tail? (c : UInt8) : Option UInt8 := do
  let v ← value? c
  bcrypt.chars[(v &&& 0x30).toNat]?

/-! ## Bits of one byte -/

theorem toNat_shiftRight_two (x : UInt8) : (x >>> 2).toNat = x.toNat / 4 :=
  Nat.shiftRight_eq_div_pow ..

theorem toNat_shiftRight_four (x : UInt8) : (x >>> 4).toNat = x.toNat / 16 :=
  Nat.shiftRight_eq_div_pow ..

theorem toNat_shiftRight_six (x : UInt8) : (x >>> 6).toNat = x.toNat / 64 :=
  Nat.shiftRight_eq_div_pow ..

theorem toNat_low_six (x : UInt8) : (x &&& 0x3f).toNat = x.toNat % 64 :=
  Nat.and_two_pow_sub_one_eq_mod _ 6

/-- The bits that a byte leaves to the byte after it, moved up. -/
theorem toNat_low (x : UInt8) :
    ((x &&& 0x03) <<< 4).toNat = 2 ^ 4 * (x.toNat % 4) ∧
      ((x &&& 0x0f) <<< 2).toNat = 2 ^ 2 * (x.toNat % 16) ∧
      ((x &&& 0x0f) <<< 4).toNat = 2 ^ 4 * (x.toNat % 16) ∧
      ((x &&& 0x03) <<< 6).toNat = 2 ^ 6 * (x.toNat % 4) := by
  have hall : ∀ n < 256,
      ((UInt8.ofNat n &&& 0x03) <<< 4).toNat = 2 ^ 4 * ((UInt8.ofNat n).toNat % 4) ∧
        ((UInt8.ofNat n &&& 0x0f) <<< 2).toNat = 2 ^ 2 * ((UInt8.ofNat n).toNat % 16) ∧
        ((UInt8.ofNat n &&& 0x0f) <<< 4).toNat = 2 ^ 4 * ((UInt8.ofNat n).toNat % 16) ∧
        ((UInt8.ofNat n &&& 0x03) <<< 6).toNat = 2 ^ 6 * ((UInt8.ofNat n).toNat % 4) := by
    decide +kernel
  simpa using hall x.toNat x.toNat_lt

/-- The bits that a value leaves to the byte ahead of it, moved down. -/
theorem toNat_high {v : UInt8} (hv : v.toNat < 64) :
    (v <<< 2).toNat = 2 ^ 2 * v.toNat ∧ ((v &&& 0x30) >>> 4).toNat = v.toNat / 16 ∧
      ((v &&& 0x3c) >>> 2).toNat = v.toNat / 4 ∧ (v &&& 0x30).toNat = v.toNat / 16 * 16 := by
  have hall : ∀ n < 64, (UInt8.ofNat n <<< 2).toNat = 2 ^ 2 * (UInt8.ofNat n).toNat ∧
      ((UInt8.ofNat n &&& 0x30) >>> 4).toNat = (UInt8.ofNat n).toNat / 16 ∧
      ((UInt8.ofNat n &&& 0x3c) >>> 2).toNat = (UInt8.ofNat n).toNat / 4 ∧
      (UInt8.ofNat n &&& 0x30).toNat = (UInt8.ofNat n).toNat / 16 * 16 := by
    decide +kernel
  simpa using hall v.toNat hv

/-- Bits above a place and bits below it make a sum. -/
theorem toNat_or {x y : UInt8} {i a : Nat} (hx : x.toNat = 2 ^ i * a) (hy : y.toNat < 2 ^ i) :
    (x ||| y).toNat = 2 ^ i * a + y.toNat := by
  rw [UInt8.toNat_or, hx, Nat.two_pow_add_eq_or_of_lt hy]

/-! ## Characters -/

theorem value?_char {v : Nat} (hv : v < 64) : value? (bcrypt.char v) = some (UInt8.ofNat v) := by
  have hall : ∀ v < 64, value? (bcrypt.char v) = some (UInt8.ofNat v) := by decide +kernel
  exact hall v hv

theorem char_of_value? {c v : UInt8} (h : value? c = some v) : bcrypt.char v.toNat = c := by
  have hall : ∀ n < 256, ∀ v ∈ value? (UInt8.ofNat n), bcrypt.char v.toNat = UInt8.ofNat n := by
    decide +kernel
  have hc := hall c.toNat c.toNat_lt
  rw [UInt8.ofNat_toNat] at hc
  exact hc v h

/-- The ranges of characters make up the alphabet. -/
theorem value?_eq (c : UInt8) : value? c = (bcrypt.value? c).map UInt8.ofNat := by
  cases hv : bcrypt.value? c with
  | some v =>
    rw [← Alphabet.char_of_value? hv]
    exact value?_char (value?_lt hv)
  | none =>
    -- a character in one of the ranges is one of the alphabet
    cases hw : value? c with
    | none => rfl
    | some w =>
      have hhas := has_char bcrypt w.toNat
      rw [char_of_value? hw, has, hv] at hhas
      cases hhas

theorem getElem?_chars {v : Nat} (hv : v < 64) : bcrypt.chars[v]? = some (bcrypt.char v) := by
  have hlen : v < bcrypt.chars.length := Nat.lt_of_lt_of_eq hv bcrypt.length_chars.symm
  rw [List.getElem?_eq_getElem hlen]
  simp [char, Nat.mod_eq_of_lt hv]

theorem tail?_eq (c : UInt8) : tail? c = canonicalTail? bcrypt c := by
  rw [tail?, value?_eq, canonicalTail?]
  cases hc : bcrypt.value? c with
  | none => rfl
  | some v =>
    have hv := value?_lt hc
    have hbyte : (UInt8.ofNat v).toNat = v := UInt8.toNat_ofNat_of_lt' (Nat.lt_trans hv (by decide))
    obtain ⟨-, -, -, htop⟩ := toNat_high (v := UInt8.ofNat v) (by omega)
    rw [hbyte] at htop
    simp only [Option.map_some, Option.bind_eq_bind, Option.bind_some, htop]
    exact getElem?_chars (by omega)

/-! ## Writing by the numbers of groups -/

theorem char_congr {a : Alphabet} {v w : Nat} (h : v % 64 = w % 64) : a.char v = a.char w := by
  rw [← char_mod, h, char_mod]

/-- The values of a byte string are below 64, and they are the digits of its groups. -/
theorem sixes_spec (b : Bytes) :
    (∀ v ∈ sixes b, v.toNat < 64) ∧
      (sixes b).map (fun v => bcrypt.char v.toNat) = encodeHigh bcrypt b := by
  fun_induction sixes b with
  | case1 x y z rest ih =>
    obtain ⟨hlt, hchars⟩ := ih
    have hx := x.toNat_lt
    have hy := y.toNat_lt
    have hz := z.toNat_lt
    have h1 := toNat_or (y := y >>> 4) (toNat_low x).1 (by rw [toNat_shiftRight_four]; omega)
    have h2 := toNat_or (y := z >>> 6) (toNat_low y).2.1 (by rw [toNat_shiftRight_six]; omega)
    rw [toNat_shiftRight_four] at h1
    rw [toNat_shiftRight_six] at h2
    simp only [List.forall_mem_cons, List.map_cons, encodeHigh, hchars, List.cons.injEq, and_true,
      toNat_shiftRight_two, toNat_low_six, h1, h2]
    exact ⟨⟨by omega, by omega, by omega, by omega, hlt⟩, char_congr (by omega),
      char_congr (by omega), char_congr (by omega), char_congr (by omega)⟩
  | case2 x y =>
    have hx := x.toNat_lt
    have hy := y.toNat_lt
    have h1 := toNat_or (y := y >>> 4) (toNat_low x).1 (by rw [toNat_shiftRight_four]; omega)
    rw [toNat_shiftRight_four] at h1
    simp only [List.forall_mem_cons, List.map_cons, List.map_nil, encodeHigh, List.cons.injEq,
      and_true, toNat_shiftRight_two, (toNat_low y).2.1, h1]
    exact ⟨⟨by omega, by omega, by omega, by simp⟩, char_congr (by omega), char_congr (by omega),
      char_congr (by omega)⟩
  | case3 x =>
    have hx := x.toNat_lt
    simp only [List.forall_mem_cons, List.map_cons, List.map_nil, encodeHigh, List.cons.injEq,
      and_true, toNat_shiftRight_two, (toNat_low x).1]
    exact ⟨⟨by omega, by omega, by simp⟩, trivial, char_congr (by omega)⟩
  | case4 => exact ⟨by simp, rfl⟩

theorem mapM_chars {vs : Bytes} (h : ∀ v ∈ vs, v.toNat < 64) :
    vs.mapM (fun v => bcrypt.chars[v.toNat]?) = some (vs.map fun v => bcrypt.char v.toNat) := by
  induction vs with
  | nil => rfl
  | cons v vs ih =>
    obtain ⟨hv, hvs⟩ := List.forall_mem_cons.1 h
    rw [List.mapM_cons, getElem?_chars hv, ih hvs]
    rfl

/-- Every byte string has characters, the ones of the numbers of its groups. -/
theorem encode?_eq (b : Bytes) : encode? b = some (encodeHigh bcrypt b) := by
  obtain ⟨hlt, hchars⟩ := sixes_spec b
  rw [encode?, mapM_chars hlt, hchars]

/-! ## Reading by the values of a text -/

/-- A character that is not read ends the values of a text, and one that is read is the first of
    them. -/
theorem next?_bind_eq {s : Bytes} {f : UInt8 × Bytes → Option Bytes} {target : Option Bytes}
    (hend : valueRun bcrypt s = [] → target = none)
    (hstep : ∀ v rest, v.toNat < 64 → valueRun bcrypt s = v.toNat :: valueRun bcrypt rest →
      f (v, rest) = target) : (next? s).bind f = target := by
  cases s with
  | nil => exact (hend rfl).symm
  | cons c s =>
    rw [valueRun] at hend hstep
    rw [next?, value?_eq]
    cases hc : bcrypt.value? c with
    | none =>
      rw [hc] at hend
      exact (hend rfl).symm
    | some v =>
      have hv := value?_lt hc
      have hbyte : (UInt8.ofNat v).toNat = v :=
        UInt8.toNat_ofNat_of_lt' (Nat.lt_trans hv (by decide))
      rw [hc] at hstep
      exact hstep (UInt8.ofNat v) s (by omega) (by rw [hbyte])

theorem first_eq {p q : UInt8} (hp : p.toNat < 64) (hq : q.toNat < 64) :
    first p q = UInt8.ofNat (4 * p.toNat + q.toNat / 16) := by
  have h := toNat_or (y := (q &&& 0x30) >>> 4) (toNat_high hp).1
    (by rw [(toNat_high hq).2.1]; omega)
  rw [← UInt8.toNat_inj, first, h, (toNat_high hq).2.1, UInt8.toNat_ofNat']
  omega

theorem second_eq {q r : UInt8} (hr : r.toNat < 64) :
    second q r = UInt8.ofNat (16 * q.toNat + r.toNat / 4) := by
  have h := toNat_or (y := (r &&& 0x3c) >>> 2) (toNat_low q).2.2.1
    (by rw [(toNat_high hr).2.2.1]; omega)
  rw [← UInt8.toNat_inj, second, h, (toNat_high hr).2.2.1, UInt8.toNat_ofNat']
  omega

theorem third_eq {r s : UInt8} (hs : s.toNat < 64) :
    third r s = UInt8.ofNat (64 * r.toNat + s.toNat) := by
  have h := toNat_or (y := s) (toNat_low r).2.2.2 hs
  rw [← UInt8.toNat_inj, third, h, UInt8.toNat_ofNat']
  omega

theorem decodeExactly?_eq_none {n : Nat} {s : Bytes}
    (h : 3 * (valueRun bcrypt s).length / 4 < n) : decodeExactly? bcrypt n s = none := by
  have hlen : (decodePrefix bcrypt n s).length ≠ n := by
    rw [decodePrefix, List.length_take, length_packHigh]
    omega
  simp [decodeExactly?, hlen]

/-- A whole group and the bytes after it. -/
theorem decodeExactly?_add_three {n p q r t : Nat} {s rest : Bytes}
    (h : valueRun bcrypt s = p :: q :: r :: t :: valueRun bcrypt rest) :
    decodeExactly? bcrypt (n + 3) s = (decodeExactly? bcrypt n rest).map fun b =>
      UInt8.ofNat (4 * p + q / 16) :: UInt8.ofNat (16 * q + r / 4) :: UInt8.ofNat (64 * r + t) ::
        b := by
  simp only [decodeExactly?, decodePrefix, h, packHigh, List.take_succ_cons]
  generalize (packHigh (valueRun bcrypt rest)).take n = b
  by_cases hb : b.length = n
  · simp [Option.filter, hb]
  · simp [Option.filter, hb]

theorem take_one_packHigh (p q : Nat) (vs : List Nat) :
    (packHigh (p :: q :: vs)).take 1 = [UInt8.ofNat (4 * p + q / 16)] := by
  match vs with
  | [] | [_] | _ :: _ :: _ => rfl

theorem take_two_packHigh (p q r : Nat) (vs : List Nat) :
    (packHigh (p :: q :: r :: vs)).take 2 =
      [UInt8.ofNat (4 * p + q / 16), UInt8.ofNat (16 * q + r / 4)] := by
  match vs with
  | [] | _ :: _ => rfl

/-- Reading stops within a group as the numbers of the groups do. -/
theorem decode?_eq (n : Nat) (s : Bytes) : decode? n s = decodeExactly? bcrypt n s := by
  -- by the bytes that are left to read, three at a time; each character may be the last
  fun_induction decode? n s with
  | case1 s => rfl
  | case2 s =>
    refine next?_bind_eq (fun h => decodeExactly?_eq_none (by simp [h])) fun p s₁ hp h₁ => ?_
    refine next?_bind_eq (fun h => decodeExactly?_eq_none (by simp [h₁, h])) fun q s₂ hq h₂ => ?_
    rw [decodeExactly?, decodePrefix, h₁, h₂, take_one_packHigh, ← first_eq hp hq]
    rfl
  | case3 s =>
    refine next?_bind_eq (fun h => decodeExactly?_eq_none (by simp [h])) fun p s₁ hp h₁ => ?_
    refine next?_bind_eq (fun h => decodeExactly?_eq_none (by simp [h₁, h])) fun q s₂ hq h₂ => ?_
    refine next?_bind_eq (fun h => decodeExactly?_eq_none (by simp [h₁, h₂, h]))
      fun r s₃ hr h₃ => ?_
    rw [decodeExactly?, decodePrefix, h₁, h₂, h₃, take_two_packHigh, ← first_eq hp hq,
      ← second_eq hr]
    rfl
  | case4 n s ih =>
    refine next?_bind_eq (fun h => decodeExactly?_eq_none (by simp [h])) fun p s₁ hp h₁ => ?_
    refine next?_bind_eq (fun h => decodeExactly?_eq_none (by simp [h₁, h])) fun q s₂ hq h₂ => ?_
    refine next?_bind_eq (fun h => decodeExactly?_eq_none (by simp [h₁, h₂, h]))
      fun r s₃ hr h₃ => ?_
    refine next?_bind_eq (fun h => decodeExactly?_eq_none (by simp [h₁, h₂, h₃, h]))
      fun t s₄ ht h₄ => ?_
    have hgroup : valueRun bcrypt s =
        p.toNat :: q.toNat :: r.toNat :: t.toNat :: valueRun bcrypt s₄ := by rw [h₁, h₂, h₃, h₄]
    rw [decodeExactly?_add_three hgroup, ← ih, ← first_eq hp hq, ← second_eq hr, ← third_eq ht]
    exact Option.map_eq_bind.symm

/-- A written byte string is read, whatever follows it. -/
theorem decode?_encodeHigh_append (b rest : Bytes) :
    decode? b.length (encodeHigh bcrypt b ++ rest) = some b := by
  rw [decode?_eq, decodeExactly?_encodeHigh_append]

end ByteSteps

end Base64

end PassHash
