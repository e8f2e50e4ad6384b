import PassHash.Digest.Hmac
import PassHash.Digest.Sha1
import PassHash.Scheme.Field

/-!
# SHA-1-crypt

`$sha1$iterations$salt$digest`: HMAC-SHA-1 under the phrase, iterated over its own output.

## Contents

- `Sha1Crypt.Setting`, `Sha1Crypt.parse?`: iterations and salt
- `Sha1Crypt.digest`: the digest of a phrase
- `Sha1Crypt.hash`, `Sha1Crypt.generate`: hashing and fresh settings
-/

namespace PassHash

namespace Sha1Crypt

/-! ## Settings -/

/-- The characters that select the scheme. -/
def tag : Bytes := Bytes.ascii "$sha1"

/-- The marker of the scheme, with the separator that a setting needs. -/
def marker : Bytes := tag ++ [Field.dollar]

/-- Iterations and salt. -/
structure Setting where
  iterations : Nat
  salt : Bytes
  deriving DecidableEq, Repr

/-- The text of a setting, up to and including the separator ahead of a digest. -/
def Setting.text (s : Setting) : Bytes :=
  marker ++ Bytes.decimal s.iterations ++ [Field.dollar] ++ s.salt ++ [Field.dollar]

/-- The iterations and the salt of a setting. The number may be missing, which is zero, may have
    leading zeros, and stops growing at 64 bits; the salt may not be empty. -/
def parse? (setting : Bytes) : Option Setting := do
  let rest ← Bytes.after? marker setting
  let run := Bytes.digitRun rest
  match rest.drop run.length with
  | [] => none
  | c :: rest =>
    let salt ← Field.salt? Field.isCryptChar rest
    if c = Field.dollar ∧ salt ≠ [] then
      some ⟨min (Bytes.decimalValue run) 0xffffffffffffffff, salt⟩
    else none

/-! ## Digests -/

/-- The digest of a phrase: the tag of salt, marker and iterations, and then of each tag in turn. -/
def digest (s : Setting) (phrase : Bytes) : Bytes :=
  Nat.fold (s.iterations - 1) (fun _ _ tag => Hmac.tag Sha1.hash phrase tag)
    (Hmac.tag Sha1.hash phrase (s.salt ++ marker ++ Bytes.decimal s.iterations))

/-- The order in which the bytes of a digest are written; the first one fills up the last group. -/
def order : List (List Nat) :=
  [[0, 1, 2], [3, 4, 5], [6, 7, 8], [9, 10, 11], [12, 13, 14], [15, 16, 17], [18, 19, 0]]

/-! ## Hashing -/

/-- The longest salt of a fresh setting. -/
def maxFreshSalt : Nat := 64

/-- The bytes that a hash needs at least: room for ten digits and the longest fresh salt. -/
def outputSize : Nat := marker.length + 2 + 10 + maxFreshSalt + 28

/-- The hash of a phrase. -/
def hash (room : Room) (phrase setting : Bytes) : Except Failure Bytes := do
  Room.need room.output outputSize
  Room.need room.scratch 40
  let s ← Failure.orInvalid (parse? setting)
  Room.fit room.output (s.text ++ Base64.scatter order (digest s phrase))

/-- The iterations of a fresh setting: the requested ones, 262144 for zero, at least 4 and in 32
    bits, less a random part of up to a quarter. -/
def freshIterations (count random : Nat) : Nat :=
  let n := if count = 0 then 262144 else max 4 (min count 0xffffffff)
  n - random % (n / 4)

/-- A fresh setting from sixteen or more random bytes: four for the iterations, the rest for the
    salt. -/
def generate (capacity count : Nat) (random : Bytes) : Except Failure Bytes := do
  Failure.unlessInvalid (16 ≤ random.length)
  Room.need capacity ((random.length - 4) * 4 / 3 + 9 + 10)
  let part := Base64.bigEndian (random.take 4).reverse
  let head := marker ++ Bytes.decimal (freshIterations count part) ++ [Field.dollar]
  let limit := min (head.length + maxFreshSalt) (capacity - 2)
  let more (written : Nat) : Bool := head.length + written + 4 < limit
  Room.fit capacity (head ++ Field.freshSalt id more 0 (random.drop 4) ++ [Field.dollar])

end Sha1Crypt

end PassHash
