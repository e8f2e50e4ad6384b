import PassHash.Digest.Sha256
import PassHash.Digest.Sha512
import PassHash.Digest.Sm3
import PassHash.Scheme.Mixture
import PassHash.Scheme.RoundsSalt

/-!
# SHA-crypt and SM3-crypt

`$5$`, `$6$` and `$sm3$` share one construction over SHA-256, SHA-512 and SM3. A setting is the
marker, optionally `rounds=N$`, and a salt of which sixteen characters count.

## Contents

- `ShaCrypt.Variant`: the three schemes and what they differ in
- `ShaCrypt.Setting`, `ShaCrypt.parse?`: rounds and salt
- `ShaCrypt.digest`: the digest of a phrase, over any hash function
- `ShaCrypt.hash`, `ShaCrypt.generate`: hashing and fresh settings
-/

namespace PassHash

namespace ShaCrypt

/-! ## Variants -/

/-- The schemes of this construction. -/
inductive Variant
  | sha256
  | sha512
  | sm3
  deriving DecidableEq, Repr

namespace Variant

/-- The marker of the scheme. -/
def tag : Variant → Bytes
  | sha256 => Bytes.ascii "$5$"
  | sha512 => Bytes.ascii "$6$"
  | sm3 => Bytes.ascii "$sm3$"

/-- The hash function. -/
def function : Variant → HashFunction
  | sha256 => Sha256.hash
  | sha512 => Sha512.hash
  | sm3 => Sm3.hash

/-- The characters of a salt: those of the crypt alphabet, for SM3 anything that ends no field. -/
def isSalt : Variant → UInt8 → Bool
  | sm3 => Field.isEntryChar
  | _ => Field.isCryptChar

/-- The order in which the bytes of a digest of 32 bytes are written. -/
def order32 : List (List Nat) :=
  [[0, 10, 20], [21, 1, 11], [12, 22, 2], [3, 13, 23], [24, 4, 14], [15, 25, 5], [6, 16, 26],
    [27, 7, 17], [18, 28, 8], [9, 19, 29], [31, 30]]

/-- The order in which the bytes of a digest of 64 bytes are written. -/
def order64 : List (List Nat) :=
  [[0, 21, 42], [22, 43, 1], [44, 2, 23], [3, 24, 45], [25, 46, 4], [47, 5, 26], [6, 27, 48],
    [28, 49, 7], [50, 8, 29], [9, 30, 51], [31, 52, 10], [53, 11, 32], [12, 33, 54], [34, 55, 13],
    [56, 14, 35], [15, 36, 57], [37, 58, 16], [59, 17, 38], [18, 39, 60], [40, 61, 19],
    [62, 20, 41], [63]]

/-- The order in which the bytes of the scheme's digest are written. -/
def order : Variant → List (List Nat)
  | sha512 => order64
  | _ => order32

/-- How many characters a digest takes. -/
def digestLength : Variant → Nat
  | sha512 => 86
  | _ => 43

end Variant

/-! ## Settings -/

/-- The characters of a salt that count. -/
def maxSalt : Nat := 16

/-- The rounds of a setting that does not state them. -/
def defaultRounds : Nat := 5000

/-- The fewest rounds. -/
def minRounds : Nat := 1000

/-- The most rounds. -/
def maxRounds : Nat := 999999999

/-- The rounds, if they are stated, and the salt. -/
structure Setting where
  rounds? : Option Nat
  salt : Bytes
  deriving DecidableEq, Repr

namespace Setting

/-- The number of rounds. -/
def rounds (s : Setting) : Nat := s.rounds?.getD defaultRounds

/-- The text of a setting, up to and including the separator ahead of a digest. -/
def text (v : Variant) (s : Setting) : Bytes :=
  let field :=
    match s.rounds? with
    | some n => Bytes.ascii "rounds=" ++ Bytes.decimal n ++ [Field.dollar]
    | none => []
  v.tag ++ field ++ s.salt ++ [Field.dollar]

end Setting

/-- The stated rounds at the start of a text, if any, and the text after them. A field that starts
    as if it stated them has to do so within the bounds. -/
def roundsField? (s : Bytes) : Option (Option Nat × Bytes) :=
  match Bytes.after? (Bytes.ascii "rounds=") s with
  | none => some (none, s)
  | some number => do
    let (n, rest) ← Field.number? maxRounds number
    match rest with
    | c :: rest => if c = Field.dollar ∧ minRounds ≤ n then some (some n, rest) else none
    | [] => none

/-- The rounds and the salt of a setting. -/
def parse? (v : Variant) (setting : Bytes) : Option Setting := do
  let (rounds?, rest) ← roundsField? ((Bytes.after? v.tag setting).getD setting)
  let salt ← Field.salt? v.isSalt rest
  pure ⟨rounds?, salt.take maxSalt⟩

/-! ## Digests -/

/-- The digest before the first round. -/
def start (h : HashFunction) (phrase salt : Bytes) : Bytes :=
  let inner := h.digest (phrase ++ salt ++ phrase)
  h.digest (phrase ++ salt ++ Bytes.recycle inner phrase.length ++
    Mixture.ofBits inner phrase phrase.length)

/-- A byte string repeated `n` times. -/
def copies (n : Nat) (s : Bytes) : Bytes := (List.replicate n s).flatten

/-- The digest of a phrase. -/
def digest (h : HashFunction) (phrase salt : Bytes) (rounds : Nat) : Bytes :=
  let first := start h phrase salt
  let phraseDigest := h.digest (copies phrase.length phrase)
  let saltDigest := h.digest (copies (16 + (first.getD 0 0).toNat) salt)
  Mixture.stretch h.digest (Bytes.recycle phraseDigest phrase.length)
    (Bytes.recycle saltDigest salt.length) rounds first

/-! ## Hashing -/

/-- The bytes of the longest hash: marker, stated rounds of nine digits, salt, digest. -/
def outputSize (v : Variant) : Nat := v.tag.length + 7 + 9 + 1 + maxSalt + 1 + v.digestLength + 1

/-- The hash of a phrase. -/
def hash (v : Variant) (room : Room) (phrase setting : Bytes) : Except Failure Bytes := do
  Room.need room.output (outputSize v)
  Room.need room.scratch (3 * v.function.digestSize)
  let s ← Failure.orInvalid (parse? v setting)
  Room.fit room.output
    (s.text v ++ Base64.scatter v.order (digest v.function phrase s.salt s.rounds))

/-- What fresh settings are made with. -/
def fresh (v : Variant) : RoundsSalt := ⟨v.tag, maxSalt, defaultRounds, minRounds, maxRounds⟩

/-- A fresh setting. -/
def generate (v : Variant) (capacity count : Nat) (random : Bytes) : Except Failure Bytes :=
  (fresh v).generate capacity count random

end ShaCrypt

end PassHash
