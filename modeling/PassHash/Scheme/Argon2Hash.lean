import PassHash.Area
import PassHash.Base64.HighFirst
import PassHash.Kdf.Argon2
import PassHash.Scheme.Field

/-!
# Argon2 Settings and Hashes

`$argon2id$v=19$m=M,t=T,p=P$salt$digest`, and the same for the other variants. Salt and digest are
in standard base 64 without padding.

## Contents

- `Argon2Hash.Setting`, `Argon2Hash.parse?`: version, cost and salt
- `Argon2Hash.hash`, `Argon2Hash.generate`: hashing and fresh settings
-/

namespace PassHash

namespace Argon2Hash

open Argon2 Base64

/-! ## Settings -/

/-- The name of a variant. -/
def name : Variant → String
  | .d => "argon2d"
  | .i => "argon2i"
  | .id => "argon2id"

/-- The marker of a variant. -/
def tag : Variant → Bytes
  | .d => Bytes.ascii "$argon2d$"
  | .i => Bytes.ascii "$argon2i$"
  | .id => Bytes.ascii "$argon2id$"

/-- The number of a version, the cost, and the salt. -/
structure Setting where
  version : Nat
  cost : Cost
  salt : Bytes
  deriving DecidableEq, Repr

/-- A setting that is shorter than this is malformed. -/
def minLength : Nat := 26

/-- A number in 32 bits under a name, and the text after the character that ends it. -/
def value? (name : String) (stop : Char) (s : Bytes) : Option (Nat × Bytes) := do
  let s ← Bytes.after? (Bytes.ascii name) s
  let (n, rest) ← Field.number? 0xffffffff s
  match rest with
  | c :: rest => if c = stop.toUInt8 then some (n, rest) else none
  | [] => none

/-- The parts of a setting. The salt goes up to the next separator; what follows it is a digest. -/
def parse? (v : Variant) (setting : Bytes) : Option Setting := do
  if setting.length < minLength then none
  else
    let s ← Bytes.after? (tag v) setting
    let (version, s) ← value? "v=" '$' s
    let (memory, s) ← value? "m=" ',' s
    let (passes, s) ← value? "t=" ',' s
    let (lanes, s) ← value? "p=" '$' s
    let salt ← decodeWhole? .standard (s.takeWhile (· != Field.dollar))
    pure ⟨version, ⟨memory, passes, lanes⟩, salt⟩

/-- The text of version and cost. -/
def costText (version : Nat) (c : Cost) : Bytes :=
  Bytes.ascii "v=" ++ Bytes.decimal version ++ Bytes.ascii "$m=" ++ Bytes.decimal c.memory ++
    Bytes.ascii ",t=" ++ Bytes.decimal c.passes ++ Bytes.ascii ",p=" ++ Bytes.decimal c.lanes ++
    [Field.dollar]

/-- The text of a setting, up to and including the separator ahead of a digest. -/
def Setting.text (v : Variant) (s : Setting) : Bytes :=
  tag v ++ costText s.version s.cost ++ encodeHigh .standard s.salt ++ [Field.dollar]

/-! ## Hashing -/

/-- The most memory, in KiB. -/
def maxMemory : Nat := 2 * 1024 * 1024

/-- The bytes of a digest. -/
def digestSize : Nat := 32

/-- The shortest salt. -/
def minSalt : Nat := 8

/-- The longest salt of a fresh setting. -/
def maxFreshSalt : Nat := 64

/-- The hash of a phrase. -/
def hash (v : Variant) (room : Room) (phrase setting : Bytes) : Except Failure Bytes := do
  let s ← Failure.orInvalid (parse? v setting)
  if maxMemory < s.cost.memory then throw .noMemory
  let version ← Failure.orInvalid (Version.ofNumber? s.version)
  Failure.unlessInvalid s.cost.ok
  Room.need room.scratch digestSize
  Failure.unlessInvalid (minSalt ≤ s.salt.length)
  Room.fit room.output (s.text v ++
    encodeHigh .standard (derive v version s.cost digestSize phrase s.salt))

/-- A fresh setting with 4 MiB of memory, one lane, and all random bytes as salt. The count is the
    number of passes, 3 for zero. -/
def generate (v : Variant) (capacity count : Nat) (random : Bytes) : Except Failure Bytes := do
  let passes := if count = 0 then 3 else count
  Failure.unlessInvalid
    (passes ≤ 0xffffffff && minSalt ≤ random.length && random.length ≤ maxFreshSalt)
  Room.fit capacity (Setting.text v ⟨19, ⟨4096, passes, 1⟩, random⟩)

end Argon2Hash

end PassHash
