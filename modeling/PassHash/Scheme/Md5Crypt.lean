import PassHash.Digest.Md5
import PassHash.Scheme.Mixture
import PassHash.Scheme.RoundsSalt

/-!
# MD5-crypt

`$1$salt$digest` with a fixed number of rounds of MD5 and a salt of at most eight characters.

## Contents

- `Md5Crypt.salt?`: the salt of a setting
- `Md5Crypt.digest`: the digest of a phrase
- `Md5Crypt.hash`, `Md5Crypt.generate`: hashing and fresh settings
-/

namespace PassHash

namespace Md5Crypt

/-! ## Settings -/

/-- The marker of the scheme. -/
def tag : Bytes := Bytes.ascii "$1$"

/-- The longest salt. -/
def maxSalt : Nat := 8

/-- The number of rounds. -/
def rounds : Nat := 1000

/-- The salt of a setting, cut to the longest one that counts. -/
def salt? (setting : Bytes) : Option Bytes :=
  (Field.salt? Field.isEntryChar ((Bytes.after? tag setting).getD setting)).map (·.take maxSalt)

/-! ## Digests -/

/-- The digest before the first round. -/
def start (phrase salt : Bytes) : Bytes :=
  let inner := Md5.digest (phrase ++ salt ++ phrase)
  Md5.digest (phrase ++ tag ++ salt ++ Bytes.recycle inner phrase.length ++
    Mixture.ofBits [0] (phrase.take 1) phrase.length)

/-- The digest of a phrase. -/
def digest (phrase salt : Bytes) : Bytes :=
  Mixture.stretch Md5.digest phrase salt rounds (start phrase salt)

/-- The order in which the bytes of a digest are written. -/
def order : List (List Nat) :=
  [[0, 6, 12], [1, 7, 13], [2, 8, 14], [3, 9, 15], [4, 10, 5], [11]]

/-! ## Hashing -/

/-- The bytes of a hash with the longest salt. -/
def outputSize : Nat := 4 + maxSalt + 1 + 22

/-- The hash of a phrase. -/
def hash (room : Room) (phrase setting : Bytes) : Except Failure Bytes := do
  Room.need room.output outputSize
  Room.need room.scratch 16
  let salt ← Failure.orInvalid (salt? setting)
  Room.fit room.output
    (tag ++ salt ++ [Field.dollar] ++ Base64.scatter order (digest phrase salt))

/-- What fresh settings are made with. -/
def fresh : RoundsSalt := ⟨tag, maxSalt, rounds, rounds, rounds⟩

/-- A fresh setting; the number of rounds cannot be chosen. -/
def generate (capacity count : Nat) (random : Bytes) : Except Failure Bytes := do
  Failure.unlessInvalid (count == 0)
  fresh.generate capacity rounds random

end Md5Crypt

end PassHash
