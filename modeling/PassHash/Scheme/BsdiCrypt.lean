import PassHash.Scheme.Descrypt

/-!
# Extended DES

`_`, four characters of count, four characters of salt. The whole phrase is folded into one key:
each further eight bytes are added to the key so far, encrypted under itself.

## Contents

- `BsdiCrypt.Setting`, `BsdiCrypt.parse?`: count and salt
- `BsdiCrypt.foldKey`: the key of a phrase
- `BsdiCrypt.hash`, `BsdiCrypt.generate`: hashing and fresh settings
-/

namespace PassHash

namespace BsdiCrypt

open Base64

/-! ## Settings -/

/-- The marker of the scheme. -/
def tag : Bytes := Bytes.ascii "_"

/-- The length of a setting. -/
def settingLength : Nat := 9

/-- Count and salt, 24 bits each. -/
structure Setting where
  count : Nat
  salt : Nat
  deriving DecidableEq, Repr

/-- The count and the salt of a setting; what follows its nine characters does not matter. -/
def parse? (setting : Bytes) : Option Setting :=
  match Bytes.after? tag setting with
  | some (a :: b :: c :: d :: p :: q :: r :: s :: _) => do
    let count ← number? [a, b, c, d]
    let salt ← number? [p, q, r, s]
    pure ⟨count, salt⟩
  | _ => none

/-! ## Digests -/

/-- The sum of two blocks without carries. -/
def add (a b : Des.Block) : Des.Block := ⟨a.left ^^^ b.left, a.right ^^^ b.right⟩

/-- The key of a phrase, given the block that its first eight bytes are added to. -/
def foldKey (previous : Des.Block) (phrase : Bytes) : Des.Block :=
  let key := add previous (Descrypt.key phrase)
  if phrase.length ≤ 8 then key
  else foldKey ((Des.Context.ofKey key 0).crypt .encrypt 1 key) (phrase.drop 8)
termination_by phrase.length
decreasing_by simp; omega

/-- The eleven characters for a phrase. -/
def digest (s : Setting) (phrase : Bytes) : Bytes :=
  Descrypt.encoded (.ofKey (foldKey .zero phrase) (UInt32.ofNat s.salt)) s.count

/-! ## Hashing -/

/-- The hash of a phrase: the setting's nine characters and the digest. -/
def hash (room : Room) (phrase setting : Bytes) : Except Failure Bytes := do
  Room.need room.output (settingLength + 11 + 1)
  Room.need room.scratch Descrypt.scratchSize
  let s ← Failure.orInvalid (parse? setting)
  Room.fit room.output (setting.take settingLength ++ digest s phrase)

/-- The count of a fresh setting: 725 for zero, at most 24 bits, and odd, which keeps weak keys from
    showing. -/
def freshCount (count : Nat) : Nat := (if count = 0 then 725 else min count 0xffffff) ||| 1

/-- A fresh setting with a salt of three random bytes. -/
def generate (capacity count : Nat) (random : Bytes) : Except Failure Bytes := do
  Room.need capacity (settingLength + 1)
  match random with
  | a :: b :: c :: _ =>
    Room.fit capacity (tag ++ digits 4 (freshCount count) ++ group [c, b, a])
  | _ => .error .invalid

end BsdiCrypt

end PassHash
