import PassHash.Base64.VarLength
import PassHash.Proofs.Base64.LowFirst

/-!
# Numbers of Variable Length, Read Back

The first character of a number tells how many more belong to it, so a number is read from those
characters alone, whatever follows them, and a written number is read back. Each number up to the
largest has one written form.

## Main statements

- `Base64.readNumber?_eq_some`: the characters that a number is read from
- `Base64.readNumber?_append`: a written number is read back ahead of any text
- `Base64.exists_writeNumber?_iff`: which numbers can be written
- `Base64.writeNumber?_of_readNumber?`: a number is written with the characters it was read from
-/

namespace PassHash

namespace Base64

open Alphabet

/-! ## Digits, the highest first -/

@[simp] theorem length_digitsHigh (n v : Nat) : (digitsHigh n v).length = n := by
  induction n with
  | zero => rfl
  | succ n ih => simp [digitsHigh, ih]

theorem numberHigh?_digitsHigh (acc n v : Nat) :
    numberHigh? acc (digitsHigh n v) = some (64 ^ n * acc + v % 64 ^ n) := by
  induction n generalizing acc with
  | zero => simp [digitsHigh, numberHigh?, Nat.mod_one]
  | succ n ih =>
    -- what is read so far takes the next digit at its low end
    have hd : v >>> (6 * n) = v / 64 ^ n := by rw [Nat.shiftRight_eq_div_pow, Nat.pow_mul]
    rw [digitsHigh, numberHigh?, ← char_mod, value?_char _ (Nat.mod_lt _ (by decide))]
    show numberHigh? (64 * acc + v >>> (6 * n) % 64) (digitsHigh n v) = _
    rw [ih, hd, Nat.pow_succ, Nat.mod_mul, Nat.mul_add, Nat.mul_assoc, Nat.add_assoc,
      Nat.add_comm (v % 64 ^ n)]

theorem has_of_numberHigh? {acc v : Nat} {s : Bytes} (h : numberHigh? acc s = some v) {c : UInt8}
    (hc : c ∈ s) : crypt.has c = true := by
  induction s generalizing acc with
  | nil => simp at hc
  | cons d s ih =>
    simp only [numberHigh?, Option.bind_eq_bind, Option.bind_eq_some_iff] at h
    obtain ⟨w, hw, h⟩ := h
    rcases List.mem_cons.1 hc with rfl | hc
    · rw [has, hw]
      rfl
    · exact ih h hc

/-! ## Reading -/

/-- An offset is read from as many characters as its range says. -/
theorem readOffset?_eq_some {ranges : List LeadRange} {lead v n : Nat} {s : Bytes}
    (h : readOffset? ranges lead s = some (v, n)) :
    ∃ body tail, s = body ++ tail ∧ n = body.length + 1 ∧ (∃ r ∈ ranges, body.length = r.tail) ∧
      (∀ c ∈ body, crypt.has c = true) ∧
      ∀ rest, readOffset? ranges lead (body ++ rest) = some (v, n) := by
  -- over the ranges, the offset getting smaller with every one that is passed
  induction ranges generalizing v with
  | nil => simp [readOffset?] at h
  | cons r ranges ih =>
    rw [readOffset?] at h
    split at h
    · next hlead =>
      split at h
      · cases h
      · next hs =>
        obtain ⟨w, hw, he⟩ := Option.map_eq_some_iff.1 h
        cases he
        have hlen : (s.take r.tail).length = r.tail := by
          rw [List.length_take]
          omega
        refine ⟨s.take r.tail, s.drop r.tail, (List.take_append_drop ..).symm, by rw [hlen],
          ⟨r, List.mem_cons_self, hlen⟩, fun c hc => has_of_numberHigh? hw hc, fun rest => ?_⟩
        rw [readOffset?, if_pos hlead, if_neg (by rw [List.length_append]; omega),
          List.take_append_of_le_length (Nat.le_of_eq hlen.symm),
          List.take_of_length_le (Nat.le_of_eq hlen), hw]
        rfl
    · next hlead =>
      obtain ⟨⟨w, m⟩, hw, he⟩ := Option.map_eq_some_iff.1 h
      cases he
      obtain ⟨body, tail, hs, hn, ⟨q, hq, hlen⟩, hchars, hread⟩ := ih hw
      refine ⟨body, tail, hs, hn, ⟨q, List.mem_cons_of_mem _ hq, hlen⟩, hchars, fun rest => ?_⟩
      rw [readOffset?, if_neg hlead, hread]
      rfl

/-- A number is read from one to six characters of the alphabet, whatever follows them. -/
theorem readNumber?_eq_some {least v n : Nat} {s : Bytes}
    (h : readNumber? least s = some (v, n)) :
    ∃ body tail, s = body ++ tail ∧ n = body.length ∧ body ≠ [] ∧ body.length ≤ 6 ∧
      (∀ c ∈ body, crypt.has c = true) ∧
      ∀ rest, readNumber? least (body ++ rest) = some (v, n) := by
  cases s with
  | nil => simp [readNumber?] at h
  | cons c s =>
    simp only [readNumber?, Option.bind_eq_bind, Option.bind_eq_some_iff, Option.pure_def,
      Option.some.injEq] at h
    obtain ⟨lead, hlead, ⟨w, m⟩, hw, he⟩ := h
    cases he
    obtain ⟨body, tail, rfl, hn, ⟨r, hr, hlen⟩, hchars, hread⟩ := readOffset?_eq_some hw
    have htails : ∀ r ∈ leadRanges, r.tail ≤ 5 := by decide
    have hle := htails r hr
    refine ⟨c :: body, tail, rfl, hn, List.cons_ne_nil c body, ?_, ?_, fun rest => ?_⟩
    · rw [List.length_cons]
      omega
    · intro d hd
      rcases List.mem_cons.1 hd with rfl | hd
      · rw [has, hlead]
        rfl
      · exact hchars d hd
    · rw [List.cons_append, readNumber?, hlead]
      show (readOffset? leadRanges lead (body ++ rest)).bind _ = _
      rw [hread]
      rfl

/-! ## Reading what is written -/

/-- Whether ranges follow on each other without gap, from a first character's value up to 64. -/
def Tiled : (first : Nat) → List LeadRange → Prop
  | first, [] => first = 64
  | first, r :: ranges => r.first = first ∧ Tiled (r.first + r.count) ranges

theorem Tiled.le {first : Nat} {ranges : List LeadRange} (h : Tiled first ranges) :
    first ≤ 64 := by
  induction ranges generalizing first with
  | nil => exact Nat.le_of_eq h
  | cons r ranges ih =>
    have := ih h.2
    have := h.1
    omega

theorem tiled_leadRanges : Tiled 0 leadRanges := by
  simp [Tiled, leadRanges]

theorem LeadRange.span_eq (r : LeadRange) : r.span = 64 ^ r.tail * r.count := by
  rw [span, Nat.shiftLeft_eq, Nat.pow_mul, Nat.mul_comm]

/-- A written offset is read back through its first character and what follows. -/
theorem readOffset?_append {first : Nat} {ranges : List LeadRange} (htiled : Tiled first ranges)
    {v : Nat} {t : Bytes} (h : writeOffset? ranges v = some t) (rest : Bytes) :
    ∃ lead tail, t = crypt.char lead :: tail ∧ first ≤ lead ∧ lead < 64 ∧
      readOffset? ranges lead (tail ++ rest) = some (v, t.length) := by
  induction ranges generalizing first v with
  | nil => cases h
  | cons r ranges ih =>
    obtain ⟨rfl, htiled⟩ := htiled
    rw [writeOffset?] at h
    split at h
    · next hspan =>
      -- the range holds the number: its first character says how far into the range
      cases h
      rw [LeadRange.span_eq] at hspan
      have hshift : v >>> (6 * r.tail) = v / 64 ^ r.tail := by
        rw [Nat.shiftRight_eq_div_pow, Nat.pow_mul]
      have hcount : v / 64 ^ r.tail < r.count := Nat.div_lt_of_lt_mul hspan
      have hle := htiled.le
      refine ⟨r.first + v / 64 ^ r.tail, digitsHigh r.tail v, by rw [hshift],
        Nat.le_add_right .., by omega, ?_⟩
      rw [readOffset?, if_pos (by omega), if_neg (by simp),
        List.take_append_of_le_length (by simp), List.take_of_length_le (by simp),
        Nat.add_sub_cancel_left, numberHigh?_digitsHigh, Nat.div_add_mod]
      simp
    · next hspan =>
      -- a later range does, and its first characters lie behind those of this one
      obtain ⟨lead, tail, rfl, hfirst, hlt, hread⟩ := ih htiled h
      refine ⟨lead, tail, rfl, by omega, hlt, ?_⟩
      rw [readOffset?, if_neg (by omega), hread]
      simp only [Option.map_some, Option.some.injEq, Prod.mk.injEq, and_true]
      omega

/-- A written number is read back ahead of any text. -/
theorem readNumber?_append {least v : Nat} {t : Bytes} (h : writeNumber? least v = some t)
    (rest : Bytes) : readNumber? least (t ++ rest) = some (v, t.length) := by
  rw [writeNumber?] at h
  split at h
  · cases h
  · next hleast =>
    obtain ⟨lead, tail, rfl, -, hlt, hread⟩ := readOffset?_append tiled_leadRanges h rest
    rw [List.cons_append, readNumber?, value?_char _ hlt]
    show (readOffset? leadRanges lead (tail ++ rest)).bind _ = _
    rw [hread]
    simp only [Option.bind_some, Option.pure_def, Option.some.injEq, Prod.mk.injEq, and_true]
    omega

/-! ## Numbers that can be written -/

/-- How many numbers the ranges write together. -/
def total (ranges : List LeadRange) : Nat := (ranges.map LeadRange.span).sum

theorem total_cons (r : LeadRange) (ranges : List LeadRange) :
    total (r :: ranges) = r.span + total ranges := by
  simp [total]

theorem total_leadRanges : total leadRanges =
    48 + 8 * 2 ^ 6 + 4 * 2 ^ 12 + 2 * 2 ^ 18 + 2 ^ 24 + 2 ^ 30 := by
  decide

theorem exists_writeOffset?_iff {ranges : List LeadRange} {v : Nat} :
    (∃ t, writeOffset? ranges v = some t) ↔ v < total ranges := by
  -- over the ranges, the offset being counted from the first of them
  induction ranges generalizing v with
  | nil => simp [writeOffset?, total]
  | cons r ranges ih =>
    rw [writeOffset?, total_cons]
    split
    · next hspan => exact ⟨fun _ => by omega, fun _ => ⟨_, rfl⟩⟩
    · next hspan =>
      rw [ih]
      omega

/-- The numbers from the lower bound on that the ranges have room for can be written. -/
theorem exists_writeNumber?_iff {least v : Nat} :
    (∃ t, writeNumber? least v = some t) ↔ least ≤ v ∧ v - least < total leadRanges := by
  rw [writeNumber?]
  split
  · next hless =>
    constructor
    · rintro ⟨t, ht⟩
      cases ht
    · rintro ⟨hle, -⟩
      omega
  · next hleast =>
    rw [exists_writeOffset?_iff]
    omega

/-- A written number has one to six characters, all of them of the alphabet. -/
theorem length_writeNumber? {least v : Nat} {t : Bytes} (h : writeNumber? least v = some t) :
    1 ≤ t.length ∧ t.length ≤ 6 ∧ ∀ c ∈ t, crypt.has c = true := by
  have hread := readNumber?_append h []
  rw [List.append_nil] at hread
  obtain ⟨body, tail, ht, hn, hne, hlen, hchars, -⟩ := readNumber?_eq_some hread
  -- all characters are read, so nothing is left over
  have hnil : tail = [] := by
    have hl := congrArg List.length ht
    rw [List.length_append] at hl
    exact List.eq_nil_of_length_eq_zero (by omega)
  rw [hnil, List.append_nil] at ht
  subst ht
  exact ⟨List.length_pos_iff.2 hne, hlen, hchars⟩

/-! ## Writing what is read -/

/-- What was read ahead of digits is the quotient, and the digits are written as they were read. -/
theorem digitsHigh_of_numberHigh? {acc v : Nat} {s : Bytes} (h : numberHigh? acc s = some v) :
    v / 64 ^ s.length = acc ∧ digitsHigh s.length v = s := by
  induction s generalizing acc with
  | nil =>
    cases h
    exact ⟨by simp, rfl⟩
  | cons c s ih =>
    simp only [numberHigh?, Option.bind_eq_bind, Option.bind_eq_some_iff] at h
    obtain ⟨w, hw, h⟩ := h
    obtain ⟨hquot, hdigits⟩ := ih h
    have hlt := value?_lt hw
    have hshift : v >>> (6 * s.length) = 64 * acc + w := by
      rw [Nat.shiftRight_eq_div_pow, Nat.pow_mul]
      exact hquot
    constructor
    · rw [List.length_cons, Nat.pow_succ, ← Nat.div_div_eq_div_mul, hquot]
      omega
    · have hmod : (64 * acc + w) % 64 = w := by omega
      rw [List.length_cons, digitsHigh, hshift, ← char_mod, hmod, char_of_value? hw, hdigits]

/-- An offset is written with the characters that it was read from. -/
theorem writeOffset?_of_readOffset? {first : Nat} {ranges : List LeadRange}
    (htiled : Tiled first ranges) {lead v n : Nat} {s : Bytes} (hfirst : first ≤ lead)
    (h : readOffset? ranges lead s = some (v, n)) :
    writeOffset? ranges v = some (crypt.char lead :: s.take (n - 1)) := by
  induction ranges generalizing first v with
  | nil => simp [readOffset?] at h
  | cons r ranges ih =>
    obtain ⟨rfl, htiled⟩ := htiled
    rw [readOffset?] at h
    split at h
    · next hlead =>
      split at h
      · cases h
      · next hs =>
        obtain ⟨w, hw, he⟩ := Option.map_eq_some_iff.1 h
        cases he
        have hlen : (s.take r.tail).length = r.tail := by
          rw [List.length_take]
          omega
        obtain ⟨hquot, hdigits⟩ := digitsHigh_of_numberHigh? hw
        rw [hlen] at hquot hdigits
        -- the quotient says how far the first character is into the range
        have hspan : v < r.span := by
          rw [LeadRange.span_eq, Nat.mul_comm, ← Nat.div_lt_iff_lt_mul (Nat.pow_pos (by decide)),
            hquot]
          omega
        rw [writeOffset?, if_pos hspan, Nat.shiftRight_eq_div_pow, Nat.pow_mul, hquot, hdigits,
          Nat.add_sub_cancel' hfirst, Nat.add_sub_cancel]
    · next hlead =>
      obtain ⟨⟨w, m⟩, hw, he⟩ := Option.map_eq_some_iff.1 h
      cases he
      rw [writeOffset?, if_neg (by omega), Nat.add_sub_cancel_left]
      exact ih htiled (by omega) hw

/-- A number is written with the characters that it was read from. -/
theorem writeNumber?_of_readNumber? {least v n : Nat} {s : Bytes}
    (h : readNumber? least s = some (v, n)) :
    n ≤ s.length ∧ writeNumber? least v = some (s.take n) := by
  obtain ⟨body, tail, hs, hn, -⟩ := readNumber?_eq_some h
  have hle : n ≤ s.length := by
    rw [hs, List.length_append]
    omega
  cases s with
  | nil => simp [readNumber?] at h
  | cons c s =>
    simp only [readNumber?, Option.bind_eq_bind, Option.bind_eq_some_iff, Option.pure_def,
      Option.some.injEq] at h
    obtain ⟨lead, hlead, ⟨w, m⟩, hw, he⟩ := h
    cases he
    refine ⟨hle, ?_⟩
    rw [writeNumber?, if_neg (by omega), Nat.add_sub_cancel_left,
      writeOffset?_of_readOffset? tiled_leadRanges (Nat.zero_le _) hw, char_of_value? hlead]
    -- an offset takes its first character and maybe more
    obtain ⟨more, -, -, rfl, -⟩ := readOffset?_eq_some hw
    rfl

end Base64

end PassHash
