import Mathlib.Algebra.Ring.Nat
import Mathlib.Data.List.Basic
import Mathlib.Data.List.Induction
import PassHash.Proofs.Bytes.Runs

/-!
# Decimal Numbers Read Back

A number is written in decimal without leading zero, and a field reads such a number up to the
first character that is no digit. Writing and reading are inverse to each other. A field may also be
read digit by digit, in numbers of 64 bits, and refused at the first digit that makes it too large.

## Contents

- `Field.scan?`: a number read digit by digit

## Main statements

- `Bytes.decimalValue_decimal`: the digits of a number stand for it
- `Bytes.decimal_decimalValue`: digits without leading zero are those of the number they stand for
- `Field.number?_eq_some_iff`: when a text starts with a number, and with which
- `Field.scan?_eq`: a number may be refused before all its digits are read
-/

namespace PassHash

namespace Bytes

/-! ## Digits -/

/-- The byte of a digit. -/
def digit (d : Nat) : UInt8 := (Nat.digitChar d).toUInt8

theorem isDigit_digit {d : Nat} (h : d < 10) : isDigit (digit d) = true := by
  have hall : ∀ d < 10, isDigit (digit d) = true := by decide
  exact hall d h

theorem toNat_digit_sub {d : Nat} (h : d < 10) : (digit d - 0x30).toNat = d := by
  have hall : ∀ d < 10, (digit d - 0x30).toNat = d := by decide
  exact hall d h

theorem exists_digit_of_isDigit {c : UInt8} (h : isDigit c = true) : ∃ d < 10, c = digit d := by
  have hall : ∀ d < 10, digit d = UInt8.ofNat (48 + d) := by decide
  have hc : 48 ≤ c.toNat ∧ c.toNat ≤ 57 := by
    simpa [isDigit, UInt8.le_iff_toNat_le] using h
  refine ⟨c.toNat - 48, by omega, ?_⟩
  rw [hall _ (by omega), show 48 + (c.toNat - 48) = c.toNat by omega, UInt8.ofNat_toNat]

theorem digit_ne_zero {d : Nat} (h0 : 0 < d) (h : d < 10) : digit d ≠ '0'.toUInt8 := by
  have hall : ∀ d < 10, 0 < d → digit d ≠ '0'.toUInt8 := by decide
  exact hall d h h0

/-! ## Writing -/

theorem decimal_of_lt {n : Nat} (h : n < 10) : decimal n = [digit n] := by
  rw [decimal, Nat.toDigits_of_lt_base h]
  rfl

theorem decimal_of_le {n : Nat} (h : 10 ≤ n) :
    decimal n = decimal (n / 10) ++ [digit (n % 10)] := by
  rw [decimal, decimal, Nat.toDigits_of_base_le (by decide) h, List.map_append]
  rfl

theorem decimal_ne_nil (n : Nat) : decimal n ≠ [] := by
  simp [decimal]

theorem length_decimal_le {n k : Nat} (hk : 0 < k) (h : n < 10 ^ k) : (decimal n).length ≤ k := by
  rw [decimal, List.length_map]
  exact (Nat.length_toDigits_le_iff (by decide) hk).2 h

theorem isDigit_of_mem_decimal {n : Nat} {c : UInt8} (h : c ∈ decimal n) : isDigit c = true := by
  -- all but the last digit are those of the quotient, for this and the next two lemmas
  induction n using Nat.strongRecOn with
  | ind n ih =>
    by_cases hn : n < 10
    · rw [decimal_of_lt hn, List.mem_singleton] at h
      exact h ▸ isDigit_digit hn
    · rw [decimal_of_le (by omega), List.mem_append, List.mem_singleton] at h
      rcases h with h | h
      · exact ih (n / 10) (by omega) h
      · exact h ▸ isDigit_digit (Nat.mod_lt _ (by decide))

/-- A positive number is not written with a leading zero. -/
theorem head?_decimal_ne_zero {n : Nat} (h : 0 < n) : (decimal n).head? ≠ some '0'.toUInt8 := by
  induction n using Nat.strongRecOn with
  | ind n ih =>
    by_cases hn : n < 10
    · rw [decimal_of_lt hn]
      simpa using digit_ne_zero h hn
    · rw [decimal_of_le (by omega), List.head?_append_of_ne_nil _ (decimal_ne_nil _)]
      exact ih (n / 10) (by omega) (by omega)

/-! ## Values -/

theorem decimalValue_append_singleton (s : Bytes) (c : UInt8) :
    decimalValue (s ++ [c]) = 10 * decimalValue s + (c - 0x30).toNat := by
  simp [decimalValue]

theorem decimalValue_decimal (n : Nat) : decimalValue (decimal n) = n := by
  induction n using Nat.strongRecOn with
  | ind n ih =>
    by_cases hn : n < 10
    · rw [decimal_of_lt hn, ← List.nil_append [digit n], decimalValue_append_singleton,
        toNat_digit_sub hn]
      simp [decimalValue]
    · have hd : n % 10 < 10 := Nat.mod_lt _ (by decide)
      rw [decimal_of_le (by omega), decimalValue_append_singleton, ih (n / 10) (by omega),
        toNat_digit_sub hd]
      omega

/-- Digits without leading zero stand for a positive number. -/
theorem decimalValue_pos {c : UInt8} {s : Bytes} (hd : ∀ d ∈ c :: s, isDigit d = true)
    (hc : c ≠ '0'.toUInt8) : 0 < decimalValue (c :: s) := by
  -- from the last digit backwards, as the value is formed; the first digit stays in front
  induction s using List.reverseRecOn with
  | nil =>
    obtain ⟨d, hlt, rfl⟩ := exists_digit_of_isDigit (hd c (List.mem_singleton_self c))
    rw [← List.nil_append [digit d], decimalValue_append_singleton, toNat_digit_sub hlt]
    have : d ≠ 0 := fun h => hc (h ▸ rfl)
    omega
  | append_singleton s e ih =>
    have := ih fun d h => hd d (by
      rw [← List.cons_append]
      exact List.mem_append_left _ h)
    rw [← List.cons_append, decimalValue_append_singleton]
    omega

/-- Digits without leading zero are those of the number that they stand for. -/
theorem decimal_decimalValue {c : UInt8} {s : Bytes} (hd : ∀ d ∈ c :: s, isDigit d = true)
    (hc : c ≠ '0'.toUInt8) : decimal (decimalValue (c :: s)) = c :: s := by
  induction s using List.reverseRecOn with
  | nil =>
    obtain ⟨d, hlt, rfl⟩ := exists_digit_of_isDigit (hd c (List.mem_singleton_self c))
    rw [← List.nil_append [digit d], decimalValue_append_singleton, toNat_digit_sub hlt]
    simpa [decimalValue] using decimal_of_lt hlt
  | append_singleton s e ih =>
    have hs : ∀ d ∈ c :: s, isDigit d = true := fun d h => hd d (by
      rw [← List.cons_append]
      exact List.mem_append_left _ h)
    have hpos := decimalValue_pos hs hc
    obtain ⟨d, hlt, rfl⟩ := exists_digit_of_isDigit (hd e (by simp))
    rw [← List.cons_append, decimalValue_append_singleton, toNat_digit_sub hlt,
      decimal_of_le (by omega)]
    -- the last digit is the remainder, and the others are the quotient's
    have hdiv : (10 * decimalValue (c :: s) + d) / 10 = decimalValue (c :: s) := by omega
    have hmod : (10 * decimalValue (c :: s) + d) % 10 = d := by omega
    rw [hdiv, hmod, ih hs]

/-! ## Runs -/

theorem digitRun_append {run rest : Bytes} (hd : ∀ d ∈ run, isDigit d = true)
    (hr : Stops isDigit rest) : digitRun (run ++ rest) = run :=
  takeWhile_append_of_stops hd hr

theorem isDigit_of_mem_digitRun {s : Bytes} {c : UInt8} (h : c ∈ digitRun s) :
    isDigit c = true :=
  List.mem_takeWhile_imp h

end Bytes

/-! ## Number fields -/

namespace Field

open Bytes

theorem number?_decimal_append {max n : Nat} {rest : Bytes} (hpos : 0 < n) (hmax : n ≤ max)
    (hr : Stops isDigit rest) : number? max (decimal n ++ rest) = some (n, rest) := by
  have hrun : digitRun (decimal n ++ rest) = decimal n :=
    digitRun_append (fun _ => isDigit_of_mem_decimal) hr
  obtain ⟨c, s, hcs⟩ := List.exists_cons_of_ne_nil (decimal_ne_nil n)
  have hc : c ≠ '0'.toUInt8 := fun h => head?_decimal_ne_zero hpos (by rw [hcs, h]; rfl)
  have hv : decimalValue (c :: s) = n := hcs ▸ decimalValue_decimal n
  simp only [number?, hrun]
  rw [hcs] at hrun ⊢
  simp only [hv, hc, false_or, Nat.not_lt.2 hmax, if_false]
  simp

/-- A text starts with a number exactly if it starts with its digits and goes on without one. -/
theorem number?_eq_some_iff {max n : Nat} {s rest : Bytes} :
    number? max s = some (n, rest) ↔
      0 < n ∧ n ≤ max ∧ s = decimal n ++ rest ∧ Stops isDigit rest := by
  constructor
  · intro h
    simp only [number?] at h
    split at h
    · cases h
    · next c run hrun =>
      split at h
      · cases h
      · next hc =>
        rw [not_or, Nat.not_lt] at hc
        simp only [Option.some.injEq, Prod.mk.injEq] at h
        obtain ⟨rfl, rfl⟩ := h
        have hd : ∀ d ∈ c :: run, isDigit d = true := by
          rw [← hrun]
          exact fun d hd => isDigit_of_mem_digitRun hd
        have hdrop : s.drop (digitRun s).length = s.dropWhile isDigit :=
          drop_length_takeWhile isDigit s
        rw [hrun] at hc ⊢
        rw [← hrun, hdrop]
        -- the run is not empty and starts without zero, so it is the one that would be written
        refine ⟨hrun ▸ decimalValue_pos hd hc.1, hrun ▸ hc.2, ?_, stops_dropWhile isDigit s⟩
        rw [hrun, decimal_decimalValue hd hc.1, ← hrun]
        exact List.takeWhile_append_dropWhile.symm
  · rintro ⟨hpos, hmax, rfl, hr⟩
    exact number?_decimal_append hpos hmax hr

/-! ### Digit by digit -/

/-- The value after one more digit. -/
def nextValue (value : Nat) (c : UInt8) : Nat := 10 * value + (c - 0x30).toNat

/-- The number that the digits at the start of a text make after a value and a count of digits
    before them, and the count of all. It is refused at the first digit that takes it out of 64 bits
    or above `max`. -/
def scanDigits (max : Nat) : (value count : Nat) → Bytes → Option (Nat × Nat)
  | value, count, [] => some (value, count)
  | value, count, c :: s =>
    if isDigit c then
      if 10 * value < 2 ^ 64 ∧ nextValue value c < 2 ^ 64 ∧ nextValue value c ≤ max then
        scanDigits max (nextValue value c) (count + 1) s
      else none
    else some (value, count)

/-- The number at the start of a text, read digit by digit, and the text after it. -/
def scan? (max : Nat) : Bytes → Option (Nat × Bytes)
  | [] => none
  | c :: s =>
    if '1'.toUInt8 ≤ c ∧ c ≤ '9'.toUInt8 then
      (scanDigits max 0 0 (c :: s)).map fun (n, count) => (n, (c :: s).drop count)
    else none

/-- More digits make no smaller number. -/
theorem le_foldl_nextValue (value : Nat) (digits : Bytes) :
    value ≤ digits.foldl nextValue value := by
  induction digits generalizing value with
  | nil => exact Nat.le_refl _
  | cons c digits ih =>
    have hnext : value ≤ nextValue value c := by
      unfold nextValue
      omega
    exact Nat.le_trans hnext (ih _)

/-- A number that is refused at one of its digits is too large in the end. -/
theorem scanDigits_eq {max value : Nat} (hmax : max < 2 ^ 64) (hvalue : value ≤ max) (count : Nat)
    (s : Bytes) : scanDigits max value count s =
      if (digitRun s).foldl nextValue value ≤ max then
        some ((digitRun s).foldl nextValue value, count + (digitRun s).length)
      else none := by
  induction s generalizing value count with
  | nil => simp [scanDigits, digitRun, hvalue]
  | cons c s ih =>
    rw [scanDigits]
    by_cases hc : isDigit c = true
    · have hrun : digitRun (c :: s) = c :: digitRun s := List.takeWhile_cons_of_pos hc
      have hten : 10 * value ≤ nextValue value c := Nat.le_add_right ..
      rw [if_pos hc, hrun, List.foldl_cons, List.length_cons]
      by_cases hnext : nextValue value c ≤ max
      · rw [if_pos ⟨by omega, by omega, hnext⟩, ih hnext, Nat.add_assoc, Nat.add_comm 1]
      · -- the digits that are left do not bring the number back below the bound
        have hlater := le_foldl_nextValue (nextValue value c) (digitRun s)
        rw [if_neg fun h => hnext h.2.2, if_neg (by omega)]
    · have hrun : digitRun (c :: s) = [] := List.takeWhile_cons_of_neg hc
      rw [if_neg hc, hrun, List.foldl_nil, if_pos hvalue]
      rfl

theorem isDigit_iff {c : UInt8} :
    isDigit c = true ↔ c = '0'.toUInt8 ∨ '1'.toUInt8 ≤ c ∧ c ≤ '9'.toUInt8 := by
  have hzero : c = '0'.toUInt8 ↔ c.toNat = 48 := UInt8.toNat_inj.symm
  have hone : '1'.toUInt8 ≤ c ↔ 49 ≤ c.toNat := UInt8.le_iff_toNat_le
  have hnine : c ≤ '9'.toUInt8 ↔ c.toNat ≤ 57 := UInt8.le_iff_toNat_le
  have hdigit : isDigit c = true ↔ 48 ≤ c.toNat ∧ c.toNat ≤ 57 := by
    simp [isDigit, UInt8.le_iff_toNat_le]
  rw [hdigit, hzero, hone, hnine]
  omega

/-- A number read digit by digit is the number that all its digits make. -/
theorem scan?_eq {max : Nat} (hmax : max < 2 ^ 64) (s : Bytes) : scan? max s = number? max s := by
  cases s with
  | nil => rfl
  | cons c s =>
    rw [scan?, number?]
    by_cases hdigit : isDigit c = true
    case neg =>
      have hrun : digitRun (c :: s) = [] := List.takeWhile_cons_of_neg hdigit
      rw [if_neg fun h => hdigit (isDigit_iff.2 (.inr h)), hrun]
    case pos =>
      have hrun : digitRun (c :: s) = c :: digitRun s := List.takeWhile_cons_of_pos hdigit
      have hvalue : decimalValue (c :: digitRun s) = (c :: digitRun s).foldl nextValue 0 := rfl
      simp only [hrun, hvalue]
      rcases isDigit_iff.1 hdigit with rfl | hpos
      · rw [if_neg (by decide), if_pos (.inl rfl)]
      · have hzero : c ≠ '0'.toUInt8 := by
          rintro rfl
          exact absurd hpos (by decide)
        rw [if_pos hpos, scanDigits_eq hmax (Nat.zero_le _), hrun, Nat.zero_add]
        -- what is refused at a digit is what is too large as a whole
        by_cases hle : (c :: digitRun s).foldl nextValue 0 ≤ max
        · rw [if_pos hle, if_neg (not_or.2 ⟨hzero, Nat.not_lt.2 hle⟩)]
          rfl
        · rw [if_neg hle, if_pos (.inr (Nat.not_le.1 hle))]
          rfl

end Field

end PassHash
