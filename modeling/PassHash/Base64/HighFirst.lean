import PassHash.Base64.Alphabet

/-!
# Base 64, High Bits First

The DES family, bcrypt and Argon2 write bytes with the most significant six bits first, three bytes
as four characters and a short last group without padding.

## Contents

- `encodeHigh`: the characters of a byte string, in any alphabet
- `decodePrefix`, `decodeExactly?`: a fixed number of bytes, read as far as the characters go
- `decodeWhole?`: the inverse of `encodeHigh`, which accepts its output and nothing else
- `canonicalTail?`: the last character of a salt, of whose value only the top two bits count

## Main statements

- `eq_encodeHigh_of_decodeWhole?`: a text that is read is the one that would be written
-/

namespace PassHash

namespace Base64

/-! ## Writing -/

/-- Three bytes as four characters, the highest bits first. -/
def encodeHigh (a : Alphabet) : Bytes → Bytes
  | x :: y :: z :: rest =>
    let v := 65536 * x.toNat + 256 * y.toNat + z.toNat
    a.char (v / 262144) :: a.char (v / 4096) :: a.char (v / 64) :: a.char v :: encodeHigh a rest
  | [x, y] =>
    let v := 1024 * x.toNat + 4 * y.toNat
    [a.char (v / 4096), a.char (v / 64), a.char v]
  | [x] => [a.char (x.toNat / 4), a.char (16 * x.toNat)]
  | [] => []

/-! ## Reading -/

/-- The values of the characters up to the first one outside the alphabet. -/
def valueRun (a : Alphabet) : Bytes → List Nat
  | [] => []
  | c :: s =>
    match a.value? c with
    | none => []
    | some v => v :: valueRun a s

/-- The whole bytes that six-bit values carry, the highest bits first. -/
def packHigh : List Nat → Bytes
  | p :: q :: r :: s :: rest =>
    UInt8.ofNat (4 * p + q / 16) :: UInt8.ofNat (16 * q + r / 4) :: UInt8.ofNat (64 * r + s) ::
      packHigh rest
  | [p, q, r] => [UInt8.ofNat (4 * p + q / 16), UInt8.ofNat (16 * q + r / 4)]
  | [p, q] => [UInt8.ofNat (4 * p + q / 16)]
  | _ => []

/-- At most `n` bytes, as far as the characters go. -/
def decodePrefix (a : Alphabet) (n : Nat) (s : Bytes) : Bytes := (packHigh (valueRun a s)).take n

/-- Exactly `n` bytes, if the characters go that far; what follows them does not matter. -/
def decodeExactly? (a : Alphabet) (n : Nat) (s : Bytes) : Option Bytes :=
  some (decodePrefix a n s) |>.filter (·.length == n)

/-- The byte string that is written as these characters. Another spelling of it, with other spare
    bits or a character left over, is refused. -/
def decodeWhole? (a : Alphabet) (s : Bytes) : Option Bytes :=
  some (packHigh (valueRun a s)) |>.filter (encodeHigh a · == s)

/-- The character with the same top two bits and the rest zero. -/
def canonicalTail? (a : Alphabet) (c : UInt8) : Option UInt8 :=
  (a.value? c).map fun v => a.char (v / 16 * 16)

theorem eq_encodeHigh_of_decodeWhole? {a : Alphabet} {s b : Bytes}
    (h : decodeWhole? a s = some b) : s = encodeHigh a b :=
  (beq_iff_eq.1 (Option.filter_eq_some_iff.1 h).2).symm

theorem length_of_decodeExactly? {a : Alphabet} {n : Nat} {s b : Bytes}
    (h : decodeExactly? a n s = some b) : b.length = n :=
  beq_iff_eq.1 (Option.filter_eq_some_iff.1 h).2

end Base64

end PassHash
