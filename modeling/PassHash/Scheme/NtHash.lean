import PassHash.Area
import PassHash.Digest.Md4

/-!
# NT Hash

`$3$$` and the MD4 of the phrase in UTF-16, in hexadecimal digits. There is no salt: what follows
the marker of a setting does not matter.

## Contents

- `NtHash.widened`: a phrase in UTF-16
- `NtHash.hash`, `NtHash.generate`: hashing and the one setting
-/

namespace PassHash

namespace NtHash

/-- The marker of the scheme. -/
def tag : Bytes := Bytes.ascii "$3$"

/-- The longest phrase. -/
def maxPhrase : Nat := 512

/-- The phrase in UTF-16, the low byte first; each byte is taken as a Latin-1 character. -/
def widened (phrase : Bytes) : Bytes := phrase.flatMap fun c => [c, 0]

/-- The two hexadecimal digits of a byte, in lower case. -/
def hexDigits (c : UInt8) : Bytes :=
  [(Nat.digitChar (c.toNat / 16)).toUInt8, (Nat.digitChar (c.toNat % 16)).toUInt8]

/-- The digest of a phrase in hexadecimal digits. -/
def digest (phrase : Bytes) : Bytes := (Md4.digest (widened phrase)).flatMap hexDigits

/-- The hash of a phrase. -/
def hash (room : Room) (phrase setting : Bytes) : Except Failure Bytes := do
  Room.need room.output (tag.length + 1 + 32 + 1)
  Room.need room.scratch (2 * maxPhrase + 16)
  Failure.unlessInvalid (setting.startsWith tag)
  Room.need maxPhrase phrase.length
  Room.fit room.output (tag ++ ['$'.toUInt8] ++ digest phrase)

/-- The setting of the scheme; there is nothing to choose. -/
def generate (capacity count : Nat) (_random : Bytes) : Except Failure Bytes := do
  Room.need capacity (tag.length + 1)
  Failure.unlessInvalid (count == 0)
  Room.fit capacity tag

end NtHash

end PassHash
