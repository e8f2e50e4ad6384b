import Mathlib.Data.List.Basic
import PassHash.Base64.HighFirst

/-!
# Base 64 with High Bits First, Read Back

A byte string that is written with the most significant six bits first is read back. A text of fixed
length is read even when its last character has spare bits set; written again, it has them cleared
and is the same otherwise.

## Main statements

- `Base64.packHigh_valueRun_encodeHigh`: a written byte string is read back
- `Base64.decodeWhole?_encodeHigh`, `Base64.decodeExactly?_encodeHigh_append`: the same for both
  readers, one of which does not mind what follows
- `Base64.encodeHigh_take_of_decodeExactly?`: a text that is read is written with a canonical last
  character
- `Base64.encodeHigh_injective`: no two byte strings are written alike
-/

namespace PassHash

namespace Base64

open Alphabet

variable {a : Alphabet}

/-! ## Writing -/

theorem length_encodeHigh (a : Alphabet) (b : Bytes) :
    (encodeHigh a b).length = (4 * b.length + 2) / 3 := by
  fun_induction encodeHigh a b with
  | case1 x y z rest v ih =>
    simp only [List.length_cons, ih]
    omega
  | case2 x y v => simp
  | case3 x => simp
  | case4 => rfl

theorem has_of_mem_encodeHigh {b : Bytes} {c : UInt8} (h : c ∈ encodeHigh a b) :
    a.has c = true := by
  fun_induction encodeHigh a b with
  | case1 x y z rest v ih =>
    simp only [List.mem_cons] at h
    rcases h with rfl | rfl | rfl | rfl | h
    · exact has_char ..
    · exact has_char ..
    · exact has_char ..
    · exact has_char ..
    · exact ih h
  | case2 x y v =>
    simp only [List.mem_cons, List.not_mem_nil, or_false] at h
    rcases h with rfl | rfl | rfl <;> exact has_char ..
  | case3 x =>
    simp only [List.mem_cons, List.not_mem_nil, or_false] at h
    rcases h with rfl | rfl <;> exact has_char ..
  | case4 => simp at h

/-! ## Values -/

theorem valueRun_nil : valueRun a [] = [] := rfl

theorem valueRun_char_cons (v : Nat) (s : Bytes) :
    valueRun a (a.char v :: s) = v % 64 :: valueRun a s := by
  rw [valueRun, ← char_mod, value?_char a (Nat.mod_lt v (by decide))]

theorem lt_of_mem_valueRun {s : Bytes} {v : Nat} (h : v ∈ valueRun a s) : v < 64 := by
  fun_induction valueRun a s with
  | case1 => simp at h
  | case2 c s hc => simp at h
  | case3 c s w hc ih =>
    rcases List.mem_cons.1 h with rfl | h
    · exact value?_lt hc
    · exact ih h

theorem length_valueRun_le (a : Alphabet) (s : Bytes) : (valueRun a s).length ≤ s.length := by
  fun_induction valueRun a s with
  | case1 => simp
  | case2 c s hc => simp
  | case3 c s v hc ih => simpa using ih

/-- The values of a text that is read to its end are written as the text. -/
theorem map_char_valueRun {s : Bytes} (h : (valueRun a s).length = s.length) :
    (valueRun a s).map a.char = s := by
  fun_induction valueRun a s with
  | case1 => rfl
  | case2 c s hc => simp at h
  | case3 c s v hc ih =>
    rw [List.map_cons, char_of_value? hc, ih (by simpa using h)]

theorem length_packHigh (vs : List Nat) : (packHigh vs).length = 3 * vs.length / 4 := by
  fun_induction packHigh vs with
  | case1 p q r s rest ih =>
    simp only [List.length_cons, ih]
    omega
  | case2 p q r => simp
  | case3 p q => simp
  | case4 vs h4 h3 h2 =>
    match vs, h4, h3, h2 with
    | [], _, _, _ => rfl
    | [p], _, _, _ => simp
    | [p, q], _, _, h2 => exact absurd rfl (h2 p q)
    | [p, q, r], _, h3, _ => exact absurd rfl (h3 p q r)
    | p :: q :: r :: s :: rest, h4, _, _ => exact absurd rfl (h4 p q r s rest)

/-! ## Reading what is written -/

theorem packHigh_valueRun_encodeHigh (a : Alphabet) (b : Bytes) :
    packHigh (valueRun a (encodeHigh a b)) = b := by
  fun_induction encodeHigh a b with
  | case1 x y z rest v ih =>
    have hx := x.toNat_lt
    have hy := y.toNat_lt
    have hz := z.toNat_lt
    have hv : v = 65536 * x.toNat + 256 * y.toNat + z.toNat := rfl
    simp only [valueRun_char_cons, packHigh, ih]
    -- each byte is put together from the values of two characters
    have h0 : UInt8.ofNat (4 * (v / 262144 % 64) + v / 4096 % 64 / 16) = x := by
      rw [← UInt8.toNat_inj, UInt8.toNat_ofNat']
      omega
    have h1 : UInt8.ofNat (16 * (v / 4096 % 64) + v / 64 % 64 / 4) = y := by
      rw [← UInt8.toNat_inj, UInt8.toNat_ofNat']
      omega
    have h2 : UInt8.ofNat (64 * (v / 64 % 64) + v % 64) = z := by
      rw [← UInt8.toNat_inj, UInt8.toNat_ofNat']
      omega
    rw [h0, h1, h2]
  | case2 x y v =>
    have hx := x.toNat_lt
    have hy := y.toNat_lt
    have hv : v = 1024 * x.toNat + 4 * y.toNat := rfl
    simp only [valueRun_char_cons, valueRun_nil, packHigh]
    have h0 : UInt8.ofNat (4 * (v / 4096 % 64) + v / 64 % 64 / 16) = x := by
      rw [← UInt8.toNat_inj, UInt8.toNat_ofNat']
      omega
    have h1 : UInt8.ofNat (16 * (v / 64 % 64) + v % 64 / 4) = y := by
      rw [← UInt8.toNat_inj, UInt8.toNat_ofNat']
      omega
    rw [h0, h1]
  | case3 x =>
    have hx := x.toNat_lt
    simp only [valueRun_char_cons, valueRun_nil, packHigh]
    have h0 : UInt8.ofNat (4 * (x.toNat / 4 % 64) + 16 * x.toNat % 64 / 16) = x := by
      rw [← UInt8.toNat_inj, UInt8.toNat_ofNat']
      omega
    rw [h0]
  | case4 => rfl

theorem encodeHigh_injective (a : Alphabet) : Function.Injective (encodeHigh a) := by
  intro b b' h
  rw [← packHigh_valueRun_encodeHigh a b, h, packHigh_valueRun_encodeHigh]

theorem decodeWhole?_encodeHigh (a : Alphabet) (b : Bytes) :
    decodeWhole? a (encodeHigh a b) = some b := by
  simp [decodeWhole?, packHigh_valueRun_encodeHigh]

/-! ## Reading on -/

theorem valueRun_append_of_has {s : Bytes} (hs : ∀ c ∈ s, a.has c = true) (rest : Bytes) :
    valueRun a (s ++ rest) = valueRun a s ++ valueRun a rest := by
  induction s with
  | nil => rfl
  | cons c s ih =>
    obtain ⟨hc, hs⟩ := List.forall_mem_cons.1 hs
    obtain ⟨v, hv⟩ := Option.isSome_iff_exists.1 hc
    simp only [List.cons_append, valueRun, hv, ih hs]

/-- More values leave the bytes as they are, though they may end the last of them. -/
theorem packHigh_prefix_append (vs ws : List Nat) : packHigh vs <+: packHigh (vs ++ ws) := by
  fun_induction packHigh vs with
  | case1 p q r s rest ih =>
    simp only [List.cons_append, packHigh, List.cons_prefix_cons, true_and]
    exact ih
  | case2 p q r =>
    match ws with
    | [] => exact List.prefix_rfl
    | _ :: _ => exact ⟨_, rfl⟩
  | case3 p q =>
    match ws with
    | [] => exact List.prefix_rfl
    | [_] => exact ⟨_, rfl⟩
    | _ :: _ :: _ => exact ⟨_, rfl⟩
  | case4 => exact List.nil_prefix

/-- A written byte string is read, whatever follows it. -/
theorem decodeExactly?_encodeHigh_append (a : Alphabet) (b rest : Bytes) :
    decodeExactly? a b.length (encodeHigh a b ++ rest) = some b := by
  have hprefix := packHigh_prefix_append (valueRun a (encodeHigh a b)) (valueRun a rest)
  rw [packHigh_valueRun_encodeHigh] at hprefix
  rw [decodeExactly?, decodePrefix, valueRun_append_of_has fun _ => has_of_mem_encodeHigh,
    ← List.prefix_iff_eq_take.1 hprefix]
  simp

theorem decodeExactly?_encodeHigh (a : Alphabet) (b : Bytes) :
    decodeExactly? a b.length (encodeHigh a b) = some b := by
  have h := decodeExactly?_encodeHigh_append a b []
  rwa [List.append_nil] at h

/-! ## Writing what is read -/

/-- Values in fours, and two more: the last of them keeps its top two bits only. -/
theorem encodeHigh_packHigh_append {k : Nat} {vs : List Nat} {p q : Nat} (hk : vs.length = 4 * k)
    (hvs : ∀ v ∈ vs, v < 64) (hp : p < 64) (hq : q < 64) :
    encodeHigh a (packHigh (vs ++ [p, q])) =
      vs.map a.char ++ [a.char p, a.char (q / 16 * 16)] := by
  -- on the number of fours, each of which is three bytes
  induction k generalizing vs with
  | zero =>
    rw [List.length_eq_zero_iff.1 hk]
    have hx : (UInt8.ofNat (4 * p + q / 16)).toNat = 4 * p + q / 16 := by
      rw [UInt8.toNat_ofNat']
      omega
    have h0 : (4 * p + q / 16) / 4 = p := by omega
    have h1 : 16 * (4 * p + q / 16) % 64 = q / 16 * 16 := by omega
    simp only [List.nil_append, packHigh, encodeHigh, hx, h0, List.map_nil]
    rw [← char_mod a (16 * _), h1]
  | succ k ih =>
    match vs, hk with
    | w :: x :: y :: z :: vs, hk =>
      simp only [List.mem_cons, forall_eq_or_imp] at hvs
      obtain ⟨hw, hx, hy, hz, hvs⟩ := hvs
      have hk : vs.length = 4 * k := by
        simp only [List.length_cons] at hk
        omega
      have h0 : (UInt8.ofNat (4 * w + x / 16)).toNat = 4 * w + x / 16 := by
        rw [UInt8.toNat_ofNat']
        omega
      have h1 : (UInt8.ofNat (16 * x + y / 4)).toNat = 16 * (x % 16) + y / 4 := by
        rw [UInt8.toNat_ofNat']
        omega
      have h2 : (UInt8.ofNat (64 * y + z)).toNat = 64 * (y % 4) + z := by
        rw [UInt8.toNat_ofNat']
        omega
      simp only [List.cons_append, packHigh, encodeHigh, h0, h1, h2, List.map_cons, ih hk hvs]
      -- the number of the group has the four values as its digits
      generalize hv : 65536 * (4 * w + x / 16) + 256 * (16 * (x % 16) + y / 4) +
        (64 * (y % 4) + z) = v
      have d0 : v / 262144 = w := by omega
      have d1 : v / 4096 % 64 = x := by omega
      have d2 : v / 64 % 64 = y := by omega
      have d3 : v % 64 = z := by omega
      rw [← char_mod a (v / 4096), ← char_mod a (v / 64), ← char_mod a v, d0, d1, d2, d3]

/-- A text that is read is long enough for the bytes. -/
theorem le_length_of_decodeExactly? {n : Nat} {s b : Bytes} (h : decodeExactly? a n s = some b) :
    4 * n ≤ 3 * s.length := by
  have hb := length_of_decodeExactly? h
  have htake : (packHigh (valueRun a s)).take n = b :=
    Option.some.inj (Option.filter_eq_some_iff.1 h).1
  have hlen := congrArg List.length htake
  have hle := length_valueRun_le a s
  rw [List.length_take, length_packHigh, hb] at hlen
  omega

/-- A text of fixed length that is read is written with the spare bits of its last character
    cleared. -/
theorem encodeHigh_of_decodeExactly? {k : Nat} {s b : Bytes} {c : UInt8}
    (hs : s.length = 4 * k + 1) (h : decodeExactly? a (3 * k + 1) (s ++ [c]) = some b) :
    ∃ last, canonicalTail? a c = some last ∧ encodeHigh a b = s ++ [last] := by
  have hb := length_of_decodeExactly? h
  have htake : (packHigh (valueRun a (s ++ [c]))).take (3 * k + 1) = b :=
    Option.some.inj (Option.filter_eq_some_iff.1 h).1
  have hlt : ∀ v ∈ valueRun a (s ++ [c]), v < 64 := fun v hv => lt_of_mem_valueRun hv
  have hmap := map_char_valueRun (a := a) (s := s ++ [c])
  have hle := length_valueRun_le a (s ++ [c])
  generalize valueRun a (s ++ [c]) = vs at *
  -- as many bytes take every character
  have hlen := congrArg List.length htake
  rw [List.length_take, length_packHigh, hb] at hlen
  rw [List.length_append, List.length_singleton] at hle hmap
  have hvs : vs.length = 4 * k + 2 := by omega
  replace hmap := hmap (by omega)
  rw [List.take_of_length_le (by rw [length_packHigh]; omega)] at htake
  -- the last two values are the ones that do not fill up a group
  obtain rfl | ⟨us, q, rfl⟩ := List.eq_nil_or_concat' vs
  · simp at hvs
  obtain rfl | ⟨ws, p, rfl⟩ := List.eq_nil_or_concat' us
  · simp at hvs
  simp only [List.map_append, List.map_cons, List.map_nil, List.length_append,
    List.length_singleton] at hmap hvs
  obtain ⟨rfl, hc⟩ := List.append_inj' hmap rfl
  cases hc
  have hp : p < 64 := hlt p (by simp)
  have hq : q < 64 := hlt q (by simp)
  refine ⟨a.char (q / 16 * 16), by rw [canonicalTail?, value?_char a hq]; rfl, ?_⟩
  rw [← htake, List.append_assoc, List.singleton_append,
    encodeHigh_packHigh_append (k := k) (by omega) (fun v hv => hlt v (by simp [hv])) hp hq,
    List.append_assoc, List.singleton_append]

/-- The same for a text that is not taken apart. -/
theorem encodeHigh_take_of_decodeExactly? {k : Nat} {s b : Bytes} (hs : s.length = 4 * k + 2)
    (h : decodeExactly? a (3 * k + 1) s = some b) :
    ∃ c last, s[4 * k + 1]? = some c ∧ canonicalTail? a c = some last ∧
      encodeHigh a b = s.take (4 * k + 1) ++ [last] := by
  have hlt : 4 * k + 1 < s.length := by omega
  have hsplit : s.take (4 * k + 1) ++ [s[4 * k + 1]] = s := by
    rw [List.take_append_getElem, List.take_of_length_le (by omega)]
  rw [← hsplit] at h
  obtain ⟨last, hlast, hcode⟩ :=
    encodeHigh_of_decodeExactly? (by rw [List.length_take]; omega) h
  exact ⟨_, last, List.getElem?_eq_getElem hlt, hlast, hcode⟩

end Base64

end PassHash
