import PassHash.Area
import PassHash.Base64.LowFirst
import PassHash.Kdf.Scrypt
import PassHash.Scheme.Field

/-!
# Scrypt Settings and Hashes

`$7$`, one character for the binary logarithm of `N`, five each for `r` and `p`, and a salt that is
used as it is written, up to the last `$`.

## Contents

- `ScryptHash.Setting`, `ScryptHash.parse?`: cost and salt
- `ScryptHash.memory?`: the size of the table, checked against overflow in 64 bits
- `ScryptHash.hash`, `ScryptHash.generate`: hashing and fresh settings
-/

namespace PassHash

namespace ScryptHash

open Base64

/-! ## Settings -/

/-- The marker of the scheme. -/
def tag : Bytes := Bytes.ascii "$7$"

/-- The characters of marker and parameters. -/
def paramsLength : Nat := tag.length + 1 + 5 * 2

/-- Binary logarithm of `N`, block size, lanes, and salt. -/
structure Setting where
  logN : Nat
  r : Nat
  p : Nat
  salt : Bytes
  deriving DecidableEq, Repr

/-- Whether a character may stand anywhere in a salt. -/
def isSaltChar (c : UInt8) : Bool := Field.isCryptChar c || c == Field.dollar

/-- Whether a salt is well formed: its first character outside the alphabet, if there is one,
    follows a separator, and after it anything goes. `previous` is the character ahead of the salt.
    -/
def saltOk (previous : UInt8) : Bytes → Bool
  | [] => true
  | c :: rest => if isSaltChar c then saltOk c rest else previous == Field.dollar

/-- The parts of a setting. -/
def parse? (setting : Bytes) : Option Setting := do
  match ← Bytes.after? tag setting with
  | n :: r₀ :: r₁ :: r₂ :: r₃ :: r₄ :: p₀ :: p₁ :: p₂ :: p₃ :: p₄ :: rest =>
    let logN ← number? [n]
    let r ← number? [r₀, r₁, r₂, r₃, r₄]
    let p ← number? [p₀, p₁, p₂, p₃, p₄]
    if logN ≠ 0 ∧ saltOk p₄ rest then pure ⟨logN, r, p, Bytes.beforeLast Field.dollar rest⟩
    else none
  | _ => none

/-! ## Cost -/

/-- The most bytes of a table. -/
def maxMemory : UInt64 := 0x40000000

/-- The bytes of the table, computed in 64 bits; there is no value when bits are lost. -/
def memory? (r logN : Nat) : Option UInt64 :=
  let state := 128 * UInt64.ofNat r
  let shift := UInt64.ofNat logN
  if (state <<< shift) >>> shift = state then some (state <<< shift) else none

/-- Whether the table fits the memory. -/
def memoryOk (s : Setting) : Bool :=
  match memory? s.r s.logN with
  | some m => m ≤ maxMemory
  | none => false

/-- Whether the parameters lie in the bounds of the algorithm. -/
def costOk (s : Setting) : Bool :=
  1 ≤ s.r && 1 ≤ s.p && s.logN < 16 * s.r && s.r * s.p < 1 <<< 30

/-- The cost of the key derivation. -/
def Setting.cost (s : Setting) : Scrypt.Cost := ⟨1 <<< s.logN, s.r, s.p⟩

/-! ## Hashing -/

/-- The bytes of scratch that a hash takes. -/
def scratchSize : Nat := 32

/-- The hash of a phrase. -/
def hash (room : Room) (phrase setting : Bytes) : Except Failure Bytes := do
  Room.need room.output (setting.length + 1 + 43 + 1)
  let s ← Failure.orInvalid (parse? setting)
  if !memoryOk s then throw .noMemory
  Failure.unlessInvalid (costOk s)
  Room.need room.scratch scratchSize
  Room.fit room.output
    (setting.take (paramsLength + s.salt.length) ++ [Field.dollar] ++
      encodeLow (Scrypt.derive phrase s.salt s.cost 32))

/-- The binary logarithm of `N` in a fresh setting, less seven: 7 for zero, otherwise 6 to 11. -/
def freshCount? (count : Nat) : Option Nat :=
  if count = 0 then some 7 else if 6 ≤ count ∧ count ≤ 11 then some count else none

/-- A fresh setting with all random bytes as salt. -/
def generate (capacity count : Nat) (random : Bytes) : Except Failure Bytes := do
  Room.need capacity (paramsLength + (random.length * 4 + 2) / 3 + 1)
  let n ← Failure.orInvalid (freshCount? count)
  Failure.unlessInvalid (16 ≤ random.length)
  Room.fit capacity
    (tag ++ digits 1 (n + 7) ++ digits 5 32 ++ digits 5 1 ++ encodeLow random)

end ScryptHash

end PassHash
