import PassHash.Proofs.Base64.VarLength

/-!
# Searching for the Range of a Number

The ranges of first characters need not be stored. A search starts with the 48 characters that stand
alone and goes on with half of those that are left, six more bits following each time, until it has
found the range of a first character or of a number. All of it is done in words of 32 bits, and no
step leaves the word, so the search reads and writes the numbers that the ranges do.

## Contents

- `Word32`: arithmetic that refuses a result out of range
- `RangeSearch`: where a search has come to
- `RangeSearch.read`, `RangeSearch.write`: numbers of variable length by search

## Main statements

- `RangeSearch.visits_start`: a search goes through all ranges in order
- `RangeSearch.read_eq`, `RangeSearch.write_eq`: no step leaves the word
- `Base64.numberCode_bijective`: numbers and their written forms correspond
-/

namespace PassHash

/-! ## Words -/

namespace Word32

/-- A result is out of range. -/
inductive Overflow
  | overflow
  deriving DecidableEq, Repr

/-- A number of 32 bits. -/
def ofNat (n : Nat) : Except Overflow Nat := if n < 2 ^ 32 then .ok n else .error .overflow

/-- The sum of two words. -/
def add (a b : Nat) : Except Overflow Nat := ofNat (a + b)

/-- The difference of two words. -/
def sub (a b : Nat) : Except Overflow Nat := if b ≤ a then .ok (a - b) else .error .overflow

/-- A word shifted up, without losing a bit. -/
def shiftLeft (a k : Nat) : Except Overflow Nat :=
  if k < 32 then ofNat (a <<< k) else .error .overflow

/-- A word shifted down, by less than its width. -/
def shiftRight (a k : Nat) : Except Overflow Nat :=
  if k < 32 then .ok (a >>> k) else .error .overflow

/-- The character at a position of the alphabet. -/
def char (v : Nat) : Except Overflow UInt8 :=
  if v < 64 then .ok (Alphabet.crypt.char v) else .error .overflow

variable {a b k : Nat}

theorem add_eq_ok (h : a + b < 2 ^ 32) : add a b = .ok (a + b) := if_pos h

theorem sub_eq_ok (h : b ≤ a) : sub a b = .ok (a - b) := if_pos h

theorem shiftLeft_eq_ok (hk : k < 32) (h : a <<< k < 2 ^ 32) :
    shiftLeft a k = .ok (a <<< k) := by
  rw [shiftLeft, if_pos hk, ofNat, if_pos h]

theorem shiftRight_eq_ok (hk : k < 32) : shiftRight a k = .ok (a >>> k) := if_pos hk

theorem char_eq_ok (h : a < 64) : char a = .ok (Alphabet.crypt.char a) := if_pos h

theorem le_of_sub_eq_ok {n : Nat} (h : sub a b = .ok n) : b ≤ a := by
  unfold sub at h
  split at h
  · assumption
  · cases h

theorem eq_add_of_add_eq_ok {n : Nat} (h : add a b = .ok n) : n = a + b := by
  unfold add ofNat at h
  split at h
  · cases h
    rfl
  · cases h

end Word32

/-! ## Search -/

/-- Where a search has come to: the first and the last character of a range, how many characters
    follow each of them, and how many bits these carry. -/
structure RangeSearch where
  first : Nat
  last : Nat
  tail : Nat
  bits : Nat
  deriving DecidableEq, Repr

namespace RangeSearch

open Word32 Base64

/-- The characters that stand alone. -/
def start : RangeSearch := ⟨0, 47, 0, 0⟩

/-- How many numbers the range writes. -/
def span (s : RangeSearch) : Except Overflow Nat := do
  shiftLeft (← sub (← add s.last 1) s.first) s.bits

/-- The range after this one: half of the characters that are left. -/
def next (s : RangeSearch) : Except Overflow RangeSearch := do
  let first ← add s.last 1
  let last ← add first ((← sub 62 s.last) / 2)
  pure ⟨first, last, s.tail + 1, ← add s.bits 6⟩

theorem next_eq_ok {s s' : RangeSearch} (h : s.next = .ok s') :
    s.last ≤ 62 ∧ s'.first = s.last + 1 ∧ s.last < s'.last := by
  simp only [next, bind, Except.bind, pure, Except.pure] at h
  split at h
  · cases h
  · next first hfirst =>
    split at h
    · cases h
    · next room hroom =>
      split at h
      · cases h
      · next last hlast =>
        split at h
        · cases h
        · cases h
          have := eq_add_of_add_eq_ok hfirst
          have := eq_add_of_add_eq_ok hlast
          refine ⟨le_of_sub_eq_ok hroom, eq_add_of_add_eq_ok hfirst, ?_⟩
          show s.last < last
          omega

/-! ### Reading -/

/-- The range of a first character, and the number that its range starts with. -/
def seek (lead : Nat) (s : RangeSearch) (value : Nat) :
    Except Overflow (RangeSearch × Nat) :=
  if lead ≤ s.last then .ok (s, value)
  else
    match _h : s.next with
    | .error e => .error e
    | .ok s' => do seek lead s' (← add value (← s.span))
termination_by lead - s.last
decreasing_by
  have := next_eq_ok _h
  omega

/-- A number and the digits after it, of which the highest comes first. -/
def readDigits : (count bits value : Nat) → Bytes → Except Overflow (Option Nat)
  | 0, _, value, _ => .ok (some value)
  | _ + 1, _, _, [] => .ok none
  | n + 1, bits, value, c :: rest =>
    match Alphabet.crypt.value? c with
    | none => .ok none
    | some digit => do
      let bits ← sub bits 6
      readDigits n bits (← add value (← shiftLeft digit bits)) rest

/-- The number of a first character and what follows it, by a search from a range that starts with
    the given number, and how many characters that takes. -/
def readFrom (s : RangeSearch) (value lead : Nat) (rest : Bytes) :
    Except Overflow (Option (Nat × Nat)) := do
  let (found, value) ← seek lead s value
  let value ← add value (← shiftLeft (← sub lead found.first) found.bits)
  let value? ← readDigits found.tail found.bits value rest
  pure (value?.map (·, found.tail + 1))

/-- The number with the lower bound `least` at the start of a text, and how many characters it
    takes. -/
def read (least : Nat) : Bytes → Except Overflow (Option (Nat × Nat))
  | [] => .ok none
  | c :: rest =>
    match Alphabet.crypt.value? c with
    | none => .ok none
    | some lead => readFrom start least lead rest

/-! ### Writing -/

/-- The range that an offset lies in, and how far into it, unless it is beyond the last range. -/
def locate (s : RangeSearch) (offset : Nat) : Except Overflow (Option (RangeSearch × Nat)) := do
  let span ← s.span
  if offset < span then pure (some (s, offset))
  else if 63 ≤ s.first then pure none
  else
    match _h : s.next with
    | .error e => .error e
    | .ok s' => do locate s' (← sub offset span)
termination_by 64 - s.last
decreasing_by
  have := next_eq_ok _h
  omega

/-- The digits of an offset, the highest first. -/
def writeDigits : (count bits offset : Nat) → Except Overflow Bytes
  | 0, _, _ => .ok []
  | n + 1, bits, offset => do
    let bits ← sub bits 6
    let c ← char ((← shiftRight offset bits) &&& 0x3f)
    pure (c :: (← writeDigits n bits offset))

/-- The characters for an offset, by a search from a range. -/
def writeFrom (s : RangeSearch) (offset : Nat) : Except Overflow (Option Bytes) := do
  match ← locate s offset with
  | none => pure none
  | some (found, offset) =>
    let c ← char (← add found.first (← shiftRight offset found.bits))
    pure (some (c :: (← writeDigits found.tail found.bits offset)))

/-- A number with the lower bound `least`, if it is not below it and not too large. -/
def write (least v : Nat) : Except Overflow (Option Bytes) :=
  if v < least then .ok none else writeFrom start (v - least)

/-! ## The ranges of a search -/

/-- The range that a search has come to. -/
def range (s : RangeSearch) : LeadRange := ⟨s.first, s.last + 1 - s.first, s.tail⟩

/-- Whether the range of a search lies in the alphabet, and all its numbers in a word. -/
structure Fits (s : RangeSearch) : Prop where
  first_le : s.first ≤ s.last
  last_lt : s.last < 64
  bits_eq : s.bits = 6 * s.tail
  bits_lt : s.bits < 32
  span_lt : s.range.span < 2 ^ 32

/-- Whether a search goes through the given ranges, from where it is to the end of the alphabet. -/
inductive Visits : RangeSearch → List LeadRange → Prop
  /-- Nothing is left after the last character. -/
  | last {s : RangeSearch} (fits : s.Fits) (hfirst : s.first = 63) : Visits s [s.range]
  | step {s t : RangeSearch} {ranges : List LeadRange} (fits : s.Fits) (hfirst : s.first < 63)
      (hnext : s.next = .ok t) (rest : Visits t ranges) : Visits s (s.range :: ranges)

instance (s : RangeSearch) : Decidable s.Fits :=
  decidable_of_iff (s.first ≤ s.last ∧ s.last < 64 ∧ s.bits = 6 * s.tail ∧ s.bits < 32 ∧
      s.range.span < 2 ^ 32)
    ⟨fun ⟨h₁, h₂, h₃, h₄, h₅⟩ => ⟨h₁, h₂, h₃, h₄, h₅⟩,
      fun ⟨h₁, h₂, h₃, h₄, h₅⟩ => ⟨h₁, h₂, h₃, h₄, h₅⟩⟩

/-- A search goes through all ranges in order. -/
theorem visits_start : Visits start leadRanges := by
  refine .step (t := ⟨48, 55, 1, 6⟩) (by decide) (by decide) rfl ?_
  refine .step (t := ⟨56, 59, 2, 12⟩) (by decide) (by decide) rfl ?_
  refine .step (t := ⟨60, 61, 3, 18⟩) (by decide) (by decide) rfl ?_
  refine .step (t := ⟨62, 62, 4, 24⟩) (by decide) (by decide) rfl ?_
  refine .step (t := ⟨63, 63, 5, 30⟩) (by decide) (by decide) rfl ?_
  exact .last (by decide) rfl

variable {s : RangeSearch} {ranges : List LeadRange}

theorem Fits.span_eq (h : s.Fits) : s.span = .ok s.range.span := by
  have hlast := h.last_lt
  have hadd : add s.last 1 = .ok (s.last + 1) := add_eq_ok (by omega)
  have hsub : sub (s.last + 1) s.first = .ok (s.last + 1 - s.first) :=
    sub_eq_ok (Nat.le_succ_of_le h.first_le)
  have hspan : (s.last + 1 - s.first) <<< s.bits = s.range.span := by
    rw [h.bits_eq]
    rfl
  have hshift : shiftLeft (s.last + 1 - s.first) s.bits = .ok s.range.span := by
    rw [shiftLeft_eq_ok h.bits_lt (hspan ▸ h.span_lt), hspan]
  simp only [span, hadd, hsub, hshift, bind, Except.bind]

/-! ## Reading by search -/

theorem readDigits_eq {base acc n : Nat} {t : Bytes}
    (hn : n ≤ 5) (hfit : base + 64 ^ n * acc + 64 ^ n ≤ 2 ^ 32) :
    readDigits n (6 * n) (base + 64 ^ n * acc) t = .ok
      (if t.length < n then none else (numberHigh? acc (t.take n)).map (base + ·)) := by
  -- the digits read so far are the multiple of a power that the rest stays below
  induction n generalizing acc t with
  | zero => simp [readDigits, numberHigh?]
  | succ n ih =>
    cases t with
    | nil => simp [readDigits]
    | cons c rest =>
      rw [readDigits, List.take_succ_cons, numberHigh?, List.length_cons]
      simp only [Nat.add_lt_add_iff_right]
      cases hv : Alphabet.crypt.value? c with
      | none => simp
      | some digit =>
        have hlt := Alphabet.value?_lt hv
        have hbits : sub (6 * (n + 1)) 6 = .ok (6 * n) := sub_eq_ok (by omega)
        have hdigit : digit <<< (6 * n) = 64 ^ n * digit := by
          rw [Nat.shiftLeft_eq, Nat.pow_mul, Nat.mul_comm]
        have hvalue : base + 64 ^ (n + 1) * acc + 64 ^ n * digit =
            base + 64 ^ n * (64 * acc + digit) := by
          rw [Nat.pow_succ, Nat.mul_add, Nat.mul_assoc, Nat.add_assoc]
        have hpos : 0 < 64 ^ n := Nat.pow_pos (by decide)
        have hle : 64 ^ n * digit + 64 ^ n ≤ 64 ^ (n + 1) := by
          rw [← Nat.mul_succ, Nat.pow_succ]
          exact Nat.mul_le_mul_left _ hlt
        have hshift : shiftLeft digit (6 * n) = .ok (64 ^ n * digit) := by
          rw [shiftLeft_eq_ok (by omega) (by rw [hdigit]; omega), hdigit]
        have hadd : add (base + 64 ^ (n + 1) * acc) (64 ^ n * digit) =
            .ok (base + 64 ^ n * (64 * acc + digit)) := by
          rw [add_eq_ok (by omega), hvalue]
        have hfit' : base + 64 ^ n * (64 * acc + digit) + 64 ^ n ≤ 2 ^ 32 := by
          rw [← hvalue]
          omega
        simp only [hbits, hshift, hadd, bind, Except.bind, Option.bind_some]
        exact ih (by omega) hfit'

/-- A first character of the range that the search has come to is read with what follows it. -/
theorem readFrom_of_le (hs : s.Fits) {value lead : Nat} (hfirst : s.first ≤ lead)
    (hlast : lead ≤ s.last) (hfit : value + s.range.span < 2 ^ 32) (ranges : List LeadRange)
    (rest : Bytes) : readFrom s value lead rest =
      .ok ((readOffset? (s.range :: ranges) lead rest).map fun (v, n) => (value + v, n)) := by
  have htail : s.tail ≤ 5 := by
    have := hs.bits_eq
    have := hs.bits_lt
    omega
  -- the character and the digits after it stay below the size of the range
  have hspan : 64 ^ s.tail * (lead - s.first) + 64 ^ s.tail ≤ s.range.span := by
    rw [LeadRange.span_eq, ← Nat.mul_succ]
    apply Nat.mul_le_mul_left
    show lead - s.first + 1 ≤ s.last + 1 - s.first
    omega
  have hle : 64 ^ s.tail * (lead - s.first) ≤ s.range.span :=
    Nat.le_trans (Nat.le_add_right ..) hspan
  have hword : value + 64 ^ s.tail * (lead - s.first) < 2 ^ 32 :=
    Nat.lt_of_le_of_lt (Nat.add_le_add_left hle value) hfit
  have hoffset : (lead - s.first) <<< s.bits = 64 ^ s.tail * (lead - s.first) := by
    rw [hs.bits_eq, Nat.shiftLeft_eq, Nat.pow_mul, Nat.mul_comm]
  have hseek : seek lead s value = .ok (s, value) := by rw [seek, if_pos hlast]
  have hshift : shiftLeft (lead - s.first) s.bits = .ok (64 ^ s.tail * (lead - s.first)) := by
    rw [shiftLeft_eq_ok hs.bits_lt (hoffset ▸ Nat.lt_of_le_of_lt hle hs.span_lt), hoffset]
  have hadd : add value (64 ^ s.tail * (lead - s.first)) =
      .ok (value + 64 ^ s.tail * (lead - s.first)) := add_eq_ok hword
  have hlead : lead < s.range.first + s.range.count := by
    show lead < s.first + (s.last + 1 - s.first)
    omega
  simp only [readFrom, hseek, sub_eq_ok hfirst, hshift, hadd, bind, Except.bind, pure,
    Except.pure]
  rw [hs.bits_eq, readDigits_eq htail (by omega), readOffset?, if_pos hlead]
  show Except.ok (Option.map _ (if rest.length < s.tail then none else
    (numberHigh? (lead - s.first) (rest.take s.tail)).map (value + ·))) =
      .ok (Option.map _ (if rest.length < s.tail then none else
        (numberHigh? (lead - s.first) (rest.take s.tail)).map (·, s.tail + 1)))
  split
  · rfl
  · rw [Option.map_map, Option.map_map]
    rfl

/-- A first character beyond the range is looked for in the next one. -/
theorem readFrom_of_lt (hs : s.Fits) {s' : RangeSearch} (hnext : s.next = .ok s')
    {value lead : Nat} (hlast : s.last < lead) (hfit : value + s.range.span < 2 ^ 32)
    (rest : Bytes) :
    readFrom s value lead rest = readFrom s' (value + s.range.span) lead rest := by
  have hseek : seek lead s value = seek lead s' (value + s.range.span) := by
    rw [seek, if_neg (Nat.not_le_of_lt hlast)]
    split
    · next e he =>
      rw [hnext] at he
      cases he
    · next s'' he =>
      rw [hnext] at he
      cases he
      simp only [hs.span_eq, add_eq_ok hfit, bind, Except.bind]
  rw [readFrom, hseek, readFrom]

/-- A search reads what the ranges that it goes through read. -/
theorem readFrom_eq (hv : Visits s ranges) {value lead : Nat} (hfirst : s.first ≤ lead)
    (hlead : lead < 64) (hfit : value + total ranges < 2 ^ 32) (rest : Bytes) :
    readFrom s value lead rest =
      .ok ((readOffset? ranges lead rest).map fun (v, n) => (value + v, n)) := by
  induction hv generalizing value with
  | @last s fits hlast =>
    rw [total_cons] at hfit
    have := fits.first_le
    exact readFrom_of_le fits hfirst (by omega) (by omega) [] rest
  | @step s s' ranges fits _ hnext _ ih =>
    rw [total_cons] at hfit
    by_cases hlast : lead ≤ s.last
    · exact readFrom_of_le fits hfirst hlast (by omega) ranges rest
    · obtain ⟨-, hfirst', -⟩ := next_eq_ok hnext
      have hbeyond : ¬lead < s.range.first + s.range.count := by
        have := fits.first_le
        show ¬lead < s.first + (s.last + 1 - s.first)
        omega
      rw [readFrom_of_lt fits hnext (Nat.lt_of_not_le hlast) (by omega),
        ih (by omega) (by omega), readOffset?, if_neg hbeyond, Option.map_map]
      simp only [Function.comp_def, Nat.add_assoc]

/-- Reading by search never leaves the word, and reads what the ranges do. -/
theorem read_eq {least : Nat} (hleast : least ≤ 2 ^ 31) (t : Bytes) :
    read least t = .ok (readNumber? least t) := by
  cases t with
  | nil => rfl
  | cons c rest =>
    rw [read, readNumber?]
    cases hlead : Alphabet.crypt.value? c with
    | none => rfl
    | some lead =>
      have htotal := total_leadRanges
      show readFrom start least lead rest = .ok ((readOffset? leadRanges lead rest).bind _)
      rw [readFrom_eq visits_start (Nat.zero_le _) (Alphabet.value?_lt hlead) (by omega)]
      cases readOffset? leadRanges lead rest <;> rfl

/-! ## Writing by search -/

theorem writeDigits_eq {n : Nat} (hn : n ≤ 5) (offset : Nat) :
    writeDigits n (6 * n) offset = .ok (digitsHigh n offset) := by
  induction n with
  | zero => rfl
  | succ n ih =>
    have hbits : sub (6 * (n + 1)) 6 = .ok (6 * n) := sub_eq_ok (by omega)
    have hshift : shiftRight offset (6 * n) = .ok (offset >>> (6 * n)) :=
      shiftRight_eq_ok (by omega)
    have hmask : offset >>> (6 * n) &&& 0x3f = offset >>> (6 * n) % 64 :=
      Nat.and_two_pow_sub_one_eq_mod _ 6
    have hchar : char (offset >>> (6 * n) % 64) =
        .ok (Alphabet.crypt.char (offset >>> (6 * n))) := by
      rw [char_eq_ok (Nat.mod_lt _ (by decide)), Alphabet.char_mod]
    simp only [writeDigits, digitsHigh, hbits, hshift, hmask, hchar, ih (by omega), bind,
      Except.bind, pure, Except.pure]

/-- An offset in the range that the search has come to is written with a first character of it. -/
theorem writeFrom_of_lt (hs : s.Fits) {offset : Nat} (hoffset : offset < s.range.span)
    (ranges : List LeadRange) :
    writeFrom s offset = .ok (writeOffset? (s.range :: ranges) offset) := by
  have htail : s.tail ≤ 5 := by
    have := hs.bits_eq
    have := hs.bits_lt
    omega
  have hlocate : locate s offset = .ok (some (s, offset)) := by
    rw [locate, hs.span_eq]
    simp only [bind, Except.bind, hoffset, if_true]
    rfl
  -- the highest digits say how far into the range the offset is
  have hcount : offset >>> s.bits < s.last + 1 - s.first := by
    rw [hs.bits_eq, Nat.shiftRight_eq_div_pow, Nat.pow_mul]
    apply Nat.div_lt_of_lt_mul
    rwa [LeadRange.span_eq] at hoffset
  have hlead : s.first + offset >>> s.bits < 64 := by
    have := hs.first_le
    have := hs.last_lt
    generalize offset >>> s.bits = count at hcount ⊢
    omega
  have hadd : add s.first (offset >>> s.bits) = .ok (s.first + offset >>> s.bits) :=
    add_eq_ok (Nat.lt_trans hlead (by decide))
  have hchar : char (s.first + offset >>> s.bits) =
      .ok (Alphabet.crypt.char (s.first + offset >>> s.bits)) := char_eq_ok hlead
  have hdigits : writeDigits s.tail s.bits offset = .ok (digitsHigh s.tail offset) := by
    rw [hs.bits_eq, writeDigits_eq htail]
  simp only [writeFrom, hlocate, shiftRight_eq_ok hs.bits_lt, hadd, hchar, hdigits, bind,
    Except.bind, pure, Except.pure]
  rw [writeOffset?, if_pos hoffset, hs.bits_eq]
  rfl

/-- An offset beyond the last range is not written. -/
theorem writeFrom_of_last (hs : s.Fits) (hfirst : s.first = 63) {offset : Nat}
    (hoffset : s.range.span ≤ offset) : writeFrom s offset = .ok none := by
  have hlocate : locate s offset = .ok none := by
    rw [locate, hs.span_eq]
    simp only [bind, Except.bind, Nat.not_lt_of_le hoffset, if_false, hfirst, Nat.le_refl,
      if_true]
    rfl
  simp only [writeFrom, hlocate, bind, Except.bind]
  rfl

/-- An offset beyond the range is looked for in the next one. -/
theorem writeFrom_of_le (hs : s.Fits) (hfirst : s.first < 63) {s' : RangeSearch}
    (hnext : s.next = .ok s') {offset : Nat} (hoffset : s.range.span ≤ offset) :
    writeFrom s offset = writeFrom s' (offset - s.range.span) := by
  have hlocate : locate s offset = locate s' (offset - s.range.span) := by
    rw [locate, hs.span_eq]
    simp only [bind, Except.bind, Nat.not_lt_of_le hoffset, if_false, Nat.not_le_of_lt hfirst]
    split
    · next e he =>
      rw [hnext] at he
      cases he
    · next s'' he =>
      rw [hnext] at he
      cases he
      simp only [sub_eq_ok hoffset]
  rw [writeFrom, hlocate, writeFrom]

/-- A search writes what the ranges that it goes through write. -/
theorem writeFrom_eq (hv : Visits s ranges) (offset : Nat) :
    writeFrom s offset = .ok (writeOffset? ranges offset) := by
  induction hv generalizing offset with
  | @last s fits hfirst =>
    by_cases hoffset : offset < s.range.span
    · exact writeFrom_of_lt fits hoffset []
    · rw [writeFrom_of_last fits hfirst (Nat.le_of_not_lt hoffset), writeOffset?, if_neg hoffset,
        writeOffset?]
  | @step s s' ranges fits hfirst hnext _ ih =>
    by_cases hoffset : offset < s.range.span
    · exact writeFrom_of_lt fits hoffset ranges
    · rw [writeFrom_of_le fits hfirst hnext (Nat.le_of_not_lt hoffset), ih, writeOffset?,
        if_neg hoffset]

/-- Writing by search never leaves the word, and writes what the ranges do. -/
theorem write_eq (least v : Nat) : write least v = .ok (writeNumber? least v) := by
  rw [write, writeNumber?]
  split
  · rfl
  · exact writeFrom_eq visits_start _

end RangeSearch

/-! ## Numbers and their written forms -/

namespace Base64

/-- Exactly the numbers from the lower bound on that the ranges have room for can be written. A
    written number has one to six characters of the alphabet, from which it is read back whatever
    follows them; and a number that is read is written with the characters it was read from. In
    words of 32 bits both can be done by search, without any step that leaves the word. -/
theorem numberCode_bijective {least : Nat} (hleast : least ≤ 2 ^ 31) :
    (∀ v, (∃ t, writeNumber? least v = some t) ↔
      least ≤ v ∧ v - least < 48 + 8 * 2 ^ 6 + 4 * 2 ^ 12 + 2 * 2 ^ 18 + 2 ^ 24 + 2 ^ 30) ∧
    (∀ v t, writeNumber? least v = some t →
      1 ≤ t.length ∧ t.length ≤ 6 ∧ (∀ c ∈ t, Alphabet.crypt.has c = true) ∧
        ∀ rest, readNumber? least (t ++ rest) = some (v, t.length)) ∧
    (∀ s v n, readNumber? least s = some (v, n) →
      v < 2 ^ 32 ∧ n ≤ s.length ∧ writeNumber? least v = some (s.take n)) ∧
    (∀ v, RangeSearch.write least v = .ok (writeNumber? least v)) ∧
    (∀ s, RangeSearch.read least s = .ok (readNumber? least s)) := by
  refine ⟨?range, ?back, ?forth, RangeSearch.write_eq least, RangeSearch.read_eq hleast⟩
  case range =>
    intro v
    rw [exists_writeNumber?_iff, total_leadRanges]
  case back =>
    intro v t ht
    obtain ⟨hone, hsix, hchars⟩ := length_writeNumber? ht
    exact ⟨hone, hsix, hchars, readNumber?_append ht⟩
  case forth =>
    intro s v n hread
    obtain ⟨hn, hwritten⟩ := writeNumber?_of_readNumber? hread
    -- the largest number is below 2 ^ 32, the bound being at most 2 ^ 31
    have hrange := exists_writeNumber?_iff.1 ⟨_, hwritten⟩
    rw [total_leadRanges] at hrange
    exact ⟨by omega, hn, hwritten⟩

/-- The largest number at the largest lower bound takes six characters. -/
theorem numberCode_bijective_largest :
    writeNumber? (2 ^ 31) 3238543919 = some (Bytes.ascii "zzzzzz") ∧
      RangeSearch.write (2 ^ 31) 3238543919 = .ok (some (Bytes.ascii "zzzzzz")) ∧
      readNumber? (2 ^ 31) (Bytes.ascii "zzzzzz" ++ Bytes.ascii "$") = some (3238543919, 6) ∧
      RangeSearch.read (2 ^ 31) (Bytes.ascii "zzzzzz$") = .ok (some (3238543919, 6)) ∧
      ¬∃ t, writeNumber? (2 ^ 31) 3238543920 = some t := by
  have hwritten : writeNumber? (2 ^ 31) 3238543919 = some (Bytes.ascii "zzzzzz") := by
    decide +kernel
  obtain ⟨hrange, hback, -, hwrite, hread⟩ := numberCode_bijective (Nat.le_refl (2 ^ 31))
  have hreadBack := (hback _ _ hwritten).2.2.2 (Bytes.ascii "$")
  refine ⟨hwritten, ?_, hreadBack, ?_, ?_⟩
  · rw [hwrite, hwritten]
  · rw [hread]
    exact congrArg Except.ok hreadBack
  · rw [hrange]
    decide

end Base64

end PassHash
