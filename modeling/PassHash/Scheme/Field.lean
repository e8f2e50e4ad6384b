import PassHash.Area
import PassHash.Base64.LowFirst

/-!
# Fields of Settings

Settings of the newer schemes are fields that `$` separates. Three kinds recur: a number in decimal,
a salt that is used as it is written, and, in fresh settings, a salt written in groups of four
characters for three random bytes each.

## Contents

- `Field.number?`: a decimal number without leading zero
- `Field.salt?`: a run of salt characters that fills its field
- `Field.freshSalt`: groups of characters from random bytes

## Main statements

- `Field.salt?_eq_some_iff`: when a field is a salt
-/

namespace PassHash

namespace Field

/-- The field separator `$`. -/
def dollar : UInt8 := '$'.toUInt8

/-! ## Numbers -/

/-- The decimal number at the start of a text, and the text after it. There is none when the digits
    are missing, start with zero or make a number above `max`. -/
def number? (max : Nat) (s : Bytes) : Option (Nat × Bytes) :=
  let run := Bytes.digitRun s
  match run with
  | [] => none
  | c :: _ =>
    if c = '0'.toUInt8 ∨ max < Bytes.decimalValue run then none
    else some (Bytes.decimalValue run, s.drop run.length)

/-! ## Salts -/

/-- The leading run of salt characters, if it ends with the text or at a separator. -/
def salt? (isSalt : UInt8 → Bool) (s : Bytes) : Option Bytes :=
  match s.dropWhile isSalt with
  | [] => some (s.takeWhile isSalt)
  | c :: _ => if c = dollar then some (s.takeWhile isSalt) else none

/-- Whether a character belongs to the crypt alphabet. -/
def isCryptChar (c : UInt8) : Bool := Alphabet.crypt.has c

/-- Whether a character neither separates fields nor ends an entry of a password file. -/
def isEntryChar (c : UInt8) : Bool :=
  c != dollar && c != ':'.toUInt8 && c != '\n'.toUInt8

theorem salt?_eq_some_iff {isSalt : UInt8 → Bool} {s salt : Bytes} :
    salt? isSalt s = some salt ↔
      s.takeWhile isSalt = salt ∧ (s = salt ∨ ∃ rest, s = salt ++ dollar :: rest) := by
  have hs := List.takeWhile_append_dropWhile (p := isSalt) (l := s)
  unfold salt?
  generalize s.takeWhile isSalt = run at hs ⊢
  split
  · next h =>
    rw [h, List.append_nil] at hs
    subst hs
    simp +contextual
  · next c rest h =>
    rw [h] at hs
    subst hs
    by_cases hc : c = dollar
    · subst hc
      simp +contextual
    · simp only [hc, if_false, reduceCtorEq, false_iff, not_and, not_or, not_exists]
      rintro rfl
      simp [hc]

/-! ## Fresh salts -/

/-- Groups of four characters for three random bytes each, put into an order with the most
    significant first, as long as `more` accepts the number of characters so far and a byte is left
    over beyond the group. -/
def freshSalt (order : Bytes → Bytes) (more : Nat → Bool) :
    (written : Nat) → (random : Bytes) → Bytes
  | written, a :: b :: c :: d :: rest =>
    if more written then
      Base64.group (order [a, b, c]) ++ freshSalt order more (written + 4) (d :: rest)
    else []
  | _, _ => []

end Field

end PassHash
