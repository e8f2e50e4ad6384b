/-!
# Byte Strings

Phrases, settings, hashes and buffers are all byte strings. This module fixes their type and the
few ways of cutting and reading them that every scheme shares.

## Contents

- `Bytes.ascii`, `Bytes.ofString`, `Bytes.toString?`: passage from and to text
- `Bytes.after?`: what follows a fixed beginning
- `Bytes.beforeNul`: the part up to a terminator
- `Bytes.beforeLast?`: the part ahead of the last separator
- `Bytes.decimal`, `Bytes.decimalValue`, `Bytes.digitRun`: decimal numbers
- `Bytes.recycle`: a block repeated up to a length

## Main statements

- `Bytes.after?_eq_some_iff`: `after?` splits off exactly the given beginning
- `Bytes.zero_notMem_beforeNul`: the terminated part holds no terminator
- `Bytes.length_recycle`: recycling gives the length asked for
-/

namespace PassHash

/-- A byte string. -/
abbrev Bytes := List UInt8

namespace Bytes

/-! ## Text -/

/-- The bytes of a text whose characters are all ASCII. -/
def ascii (s : String) : Bytes := s.toList.map Char.toUInt8

/-- The UTF-8 bytes of a text. -/
def ofString (s : String) : Bytes := s.toUTF8.data.toList

/-- The text whose UTF-8 bytes these are, if they are well formed. -/
def toString? (b : Bytes) : Option String := String.fromUTF8? ⟨b.toArray⟩

/-- The text for a reader: empty when the bytes are not well formed. -/
def shown (b : Bytes) : String := b.toString?.getD ""

/-- Whether the bytes are well-formed UTF-8. -/
def isUtf8 (b : Bytes) : Bool := b.toString?.isSome

/-! ## Cutting -/

/-- What follows `lead` in a byte string, or `none` when it starts otherwise. -/
def after? : Bytes → Bytes → Option Bytes
  | [], s => some s
  | _ :: _, [] => none
  | c :: lead, d :: s => if c = d then after? lead s else none

/-- Whether a byte string starts with `lead`. -/
def startsWith (s lead : Bytes) : Bool := (after? lead s).isSome

/-- The part ahead of the first NUL, all of it when there is none. -/
def beforeNul (s : Bytes) : Bytes := s.takeWhile (· != 0)

/-- The part ahead of the last `sep`, or `none` when `sep` does not occur. -/
def beforeLast? (sep : UInt8) : Bytes → Option Bytes
  | [] => none
  | c :: s =>
    match beforeLast? sep s with
    | some t => some (c :: t)
    | none => if c = sep then some [] else none

/-- The part ahead of the last `sep`, all of it when there is none. -/
def beforeLast (sep : UInt8) (s : Bytes) : Bytes := (beforeLast? sep s).getD s

/-! ## Decimal numbers -/

/-- Whether a byte is an ASCII digit. -/
def isDigit (c : UInt8) : Bool := 0x30 ≤ c && c ≤ 0x39

/-- The decimal text of a number, with no leading zero. -/
def decimal (n : Nat) : Bytes := (Nat.toDigits 10 n).map Char.toUInt8

/-- The leading run of digits. -/
def digitRun (s : Bytes) : Bytes := s.takeWhile isDigit

/-- The number that a run of digits stands for. -/
def decimalValue (digits : Bytes) : Nat :=
  digits.foldl (fun n c => 10 * n + (c - 0x30).toNat) 0

/-! ## Repetition -/

/-- The first `len` bytes of `block` repeated end to end; an empty block gives nothing. -/
def recycle (block : Bytes) (len : Nat) : Bytes :=
  if _ : block.length = 0 ∨ len < block.length then block.take len
  else block ++ recycle block (len - block.length)
termination_by len
decreasing_by omega

/-! ## Laws -/

theorem after?_eq_some_iff {lead s rest : Bytes} :
    after? lead s = some rest ↔ s = lead ++ rest := by
  induction lead generalizing s with
  | nil => simp [after?, eq_comm]
  | cons c lead ih =>
    cases s with
    | nil => simp [after?]
    | cons d s =>
      by_cases h : c = d
      · simp [after?, h, ih]
      · simp [after?, h, Ne.symm h]

@[simp] theorem after?_append (lead rest : Bytes) : after? lead (lead ++ rest) = some rest :=
  after?_eq_some_iff.2 rfl

theorem startsWith_iff {s lead : Bytes} : s.startsWith lead = true ↔ ∃ rest, s = lead ++ rest := by
  simp [startsWith, Option.isSome_iff_exists, after?_eq_some_iff]

theorem zero_notMem_beforeNul (s : Bytes) : 0 ∉ beforeNul s := by
  intro h
  induction s with
  | nil => simp [beforeNul] at h
  | cons c s ih =>
    by_cases hc : c = 0
    · simp [beforeNul, hc] at h
    · simp only [beforeNul, bne_iff_ne, ne_eq, hc, not_false_eq_true, List.takeWhile_cons_of_pos,
        List.mem_cons] at h
      rcases h with h | h
      · exact hc h.symm
      · exact ih h

theorem beforeNul_eq_self {s : Bytes} (h : 0 ∉ s) : beforeNul s = s := by
  induction s with
  | nil => rfl
  | cons c s ih =>
    rw [List.mem_cons, not_or] at h
    have hc : (c != 0) = true := bne_iff_ne.2 (Ne.symm h.1)
    rw [beforeNul, List.takeWhile_cons_of_pos (p := (· != 0)) hc]
    exact congrArg (c :: ·) (ih h.2)

theorem length_recycle {block : Bytes} (h : 0 < block.length) (len : Nat) :
    (recycle block len).length = len := by
  fun_induction recycle block len with
  | case1 len hs => simp; omega
  | case2 len hs ih => simp [ih]; omega

end Bytes

end PassHash
