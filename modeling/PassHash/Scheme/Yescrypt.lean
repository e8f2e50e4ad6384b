import PassHash.Area
import PassHash.Base64.LowFirst
import PassHash.Base64.VarLength
import PassHash.Digest.Sm3
import PassHash.Digest.Streebog
import PassHash.Kdf.Yescrypt.Basic
import PassHash.Scheme.Field

/-!
# Yescrypt Settings and Hashes

`$y$`, the parameters, `$`, the salt, `$` and the derived key. The parameters are numbers of
variable length: mode, binary logarithm of the table size, block size, and then, if a mask announces
them, lanes, time, upgrades and the size of a read-only table. `$gy$` and `$sm3y$` derive the same
key and tag it with an HMAC over Streebog and SM3.

## Contents

- `YescryptHash.Setting`, `YescryptHash.parse?`: parameters, salt and the length of both
- `YescryptHash.hash`, `YescryptHash.generate`: hashing and fresh settings
- `YescryptHash.Keyed`: the tagged variants
-/

namespace PassHash

namespace YescryptHash

open Base64 Yescrypt

/-! ## Settings -/

/-- The marker of the scheme. -/
def tag : Bytes := Bytes.ascii "$y$"

/-- The longest salt, decoded. -/
def maxSalt : Nat := 64

/-- Parameters, salt, and how many characters of the setting they take, the marker included. -/
structure Setting where
  params : Params
  salt : Bytes
  headLength : Nat
  deriving DecidableEq, Repr

/-- The mode that a number stands for. -/
def mode? (n : Nat) : Option Mode :=
  match n with
  | 0 => some .classic
  | 1 => some .writeOnce
  | flavor + 2 => if flavor < 256 then some (.readWrite flavor) else none

/-- The number of a mode. -/
def modeNumber : Mode → Nat
  | .classic => 0
  | .writeOnce => 1
  | .readWrite flavor => flavor + 2

/-- A number at the start of a text, and the text after it. -/
def field? (least : Nat) (s : Bytes) : Option (Nat × Bytes) :=
  (readNumber? least s).map fun (v, n) => (v, s.drop n)

/-- A field if it is announced, and otherwise the value that stands for it. -/
def optionalField? (announced : Bool) (least absent : Nat) (s : Bytes) : Option (Nat × Bytes) :=
  if announced then field? least s else some (absent, s)

/-- The power of two of an exponent that fits a word. -/
def power? (exponent : Nat) : Option Nat := if exponent ≤ 63 then some (1 <<< exponent) else none

/-- Whether a text starts with a separator. -/
def atDollar (s : Bytes) : Bool := s.head? == some Field.dollar

/-- The parameters at the start of a text, and the text after them. -/
def params? (s : Bytes) : Option (Params × Bytes) := do
  let (m, s) ← field? 0 s
  let mode ← mode? m
  let (nLog, s) ← field? 1 s
  let n ← power? nLog
  let (r, s) ← field? 1 s
  if atDollar s then pure (⟨mode, n, r, 1, 0, 0, 0⟩, s)
  else
    let (mask, s) ← field? 1 s
    let (p, s) ← optionalField? (mask.testBit 0) 2 1 s
    let (t, s) ← optionalField? (mask.testBit 1) 1 0 s
    let (g, s) ← optionalField? (mask.testBit 2) 1 0 s
    let (romLog, s) ← optionalField? (mask.testBit 3) 1 0 s
    let nrom ← if mask.testBit 3 then power? romLog else some 0
    pure (⟨mode, n, r, p, t, g, nrom⟩, s)

/-- The parts of a setting. The salt goes up to the last separator; what follows it is a hash. -/
def parse? (setting : Bytes) : Option Setting := do
  let body ← Bytes.after? tag setting
  let (params, rest) ← params? body
  let saltAndHash ← Bytes.after? [Field.dollar] rest
  let saltText := Bytes.beforeLast Field.dollar saltAndHash
  let salt ← decodeLow? saltText
  if salt.length ≤ maxSalt then
    pure ⟨params, salt, setting.length - saltAndHash.length + saltText.length⟩
  else none

/-! ## Hashing -/

/-- The bytes of scratch that a hash takes. -/
def scratchSize : Nat := 32

/-- The bytes that the hash for a setting may take. -/
def outputSize (setting : Bytes) : Nat := setting.length + 1 + 43 + 1

/-- A parsed setting and the key derived under it. -/
def keyed (phrase setting : Bytes) : Except Failure (Setting × Bytes) := do
  let s ← Failure.orInvalid (parse? setting)
  let key ← Yescrypt.derive phrase s.salt s.params
  pure (s, key)

/-- The hash of a phrase. -/
def hash (room : Room) (phrase setting : Bytes) : Except Failure Bytes := do
  Room.need room.output (outputSize setting)
  Room.need room.scratch scratchSize
  let (s, key) ← keyed phrase setting
  Room.fit room.output (setting.take s.headLength ++ [Field.dollar] ++ encodeLow key)

/-- The block size and the exponent of the table size of a fresh setting: up to 2 MiB in blocks of
    1 KiB, above that in blocks of 4 KiB. -/
def freshSizes (count : Nat) : Nat × Nat :=
  let count := if count = 0 then 5 else count
  if count < 3 then (8, count + 9) else (32, count + 7)

/-- The parameters of a fresh setting as text. -/
def freshParams? (count : Nat) : Option Bytes := do
  let (r, nLog) := freshSizes count
  let mode ← writeNumber? 0 (modeNumber (.readWrite Mode.supportedFlavor))
  let n ← writeNumber? 1 nLog
  let size ← writeNumber? 1 r
  pure (mode ++ n ++ size)

/-- A fresh setting under a marker, with all random bytes as salt. -/
def generateWith (marker : Bytes) (capacity count : Nat) (random : Bytes) :
    Except Failure Bytes := do
  Room.need capacity (marker.length + 8 * 6 + (random.length * 4 + 2) / 3 + 1)
  Failure.unlessInvalid (count ≤ 11 && 16 ≤ random.length)
  match freshParams? count with
  | some params => Room.fit capacity (marker ++ params ++ [Field.dollar] ++ encodeLow random)
  | none => .error .range

/-- A fresh setting. -/
def generate (capacity count : Nat) (random : Bytes) : Except Failure Bytes :=
  generateWith tag capacity count random

/-! ## Tagged variants -/

/-- The variants that tag the derived key. -/
inductive Keyed
  | gost
  | sm3
  deriving DecidableEq, Repr

namespace Keyed

/-- The marker of a variant. -/
def tag : Keyed → Bytes
  | gost => Bytes.ascii "$gy$"
  | sm3 => Bytes.ascii "$sm3y$"

/-- The hash function under the HMAC. -/
def function : Keyed → HashFunction
  | gost => Streebog.hash
  | sm3 => Sm3.hash

/-- The random bytes that a fresh setting uses. -/
def saltBytes : Keyed → Bytes → Bytes
  | gost, random => random
  | sm3, random => random.take maxSalt

/-- The tag of a derived key: under a key that the phrase's digest makes of the covered part of the
    setting. -/
def mark (v : Keyed) (phrase covered key : Bytes) : Bytes :=
  let inner := Hmac.tag v.function (v.function.digest phrase) covered
  Hmac.tag v.function inner key

/-- The part of the setting that the tag covers: as many characters as the setting has under the
    marker of yescrypt ahead of its hash. -/
def covered? (setting : Bytes) (headLength : Nat) : Option Bytes :=
  if headLength < setting.length then some (setting.take (headLength + 1)) else none

/-- The hash of a phrase. -/
def hash (v : Keyed) (room : Room) (phrase setting : Bytes) : Except Failure Bytes := do
  Room.need room.output (outputSize setting)
  let rest ← Failure.orInvalid (Bytes.after? v.tag setting)
  Room.need room.scratch scratchSize
  let plain := YescryptHash.tag ++ rest
  let (s, key) ← keyed phrase plain
  let covered ← Failure.orInvalid (covered? setting s.headLength)
  Room.fit room.output
    (v.tag ++ (plain.take s.headLength).drop YescryptHash.tag.length ++ [Field.dollar] ++
      encodeLow (v.mark phrase covered key))

/-- A fresh setting. -/
def generate (v : Keyed) (capacity count : Nat) (random : Bytes) : Except Failure Bytes :=
  generateWith v.tag capacity count (v.saltBytes random)

end Keyed

end YescryptHash

end PassHash
