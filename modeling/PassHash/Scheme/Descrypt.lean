import PassHash.Area
import PassHash.Base64.LowFirst
import PassHash.Base64.HighFirst
import PassHash.Cipher.Des.Basic

/-!
# Traditional DES and Bigcrypt

The oldest scheme has no marker of its own: a setting is two salt characters. Eight bytes of the
phrase make a DES key, and the hash is the zero block, encrypted 25 times under the salt. A setting
longer than such a hash asks for bigcrypt: each further eight bytes of the phrase add a block, whose
salt is the beginning of the block before it.

## Contents

- `Descrypt.block`: the eleven characters for eight bytes of a phrase
- `Descrypt.blocks`: the chained blocks of bigcrypt
- `Descrypt.hash`, `Descrypt.generate`: hashing and fresh settings
-/

namespace PassHash

namespace Descrypt

open Base64

/-! ## Settings -/

/-- The salt of twelve bits in the first two characters. -/
def salt? (setting : Bytes) : Option Nat :=
  match setting with
  | c :: d :: _ => number? [c, d]
  | _ => none

/-! ## Digests -/

/-- The DES key of the first eight bytes of a phrase, each shifted past the parity bit. -/
def key (phrase : Bytes) : Des.Block :=
  .ofBytes ((List.range 8).map fun i => phrase.getD i 0 <<< 1)

/-- The encryption of the zero block as eleven characters. -/
def encoded (ctx : Des.Context) (count : Nat) : Bytes :=
  encodeHigh .crypt (ctx.crypt .encrypt count .zero).toBytes

/-- The characters for the first eight bytes of a phrase. -/
def block (salt : Nat) (phrase : Bytes) : Bytes :=
  encoded (.ofKey (key phrase) (UInt32.ofNat salt)) 25

/-- At most `n` chained blocks, one for every eight bytes of a phrase. -/
def blocks : (n : Nat) → (salt : Nat) → (phrase : Bytes) → Bytes
  | 0, _, _ => []
  | n + 1, salt, phrase =>
    let text := block salt phrase
    match phrase.drop 8 with
    | [] => text
    | rest => text ++ blocks n ((salt? text).getD 0) rest

/-! ## Hashing -/

/-- The longest phrase of a single block. -/
def blockLength : Nat := 8

/-- The length of a hash with a single block. -/
def hashLength : Nat := 13

/-- How many blocks bigcrypt takes at most. -/
def maxBlocks : Nat := 16

/-- The bytes of scratch that a hash takes. -/
def scratchSize : Nat := 16

/-- The hash with a single block. -/
def hashSingle (room : Room) (phrase setting : Bytes) : Except Failure Bytes := do
  Room.need room.output (hashLength + 1)
  Room.need room.scratch scratchSize
  let salt ← Failure.orInvalid (salt? setting)
  Room.fit room.output (digits 2 salt ++ block salt phrase)

/-- The hash with as many blocks as the phrase fills. -/
def hashChained (room : Room) (phrase setting : Bytes) : Except Failure Bytes := do
  Room.need room.output (2 + 11 * maxBlocks + 1)
  Room.need room.scratch scratchSize
  let salt ← Failure.orInvalid (salt? setting)
  Room.fit room.output (digits 2 salt ++ blocks maxBlocks salt phrase)

/-- The hash of a phrase. A long phrase is cut when the setting is no longer than a hash with a
    single block. -/
def hash (room : Room) (phrase setting : Bytes) : Except Failure Bytes :=
  if blockLength < phrase.length ∧ setting.length ≤ hashLength then
    hashSingle room phrase setting
  else hashChained room phrase setting

/-- A fresh setting: two characters from the low bits of two random bytes. -/
def generate (capacity count : Nat) (random : Bytes) : Except Failure Bytes := do
  Room.need capacity 3
  match random with
  | a :: b :: _ =>
    if count = 0 then
      Room.fit capacity [Alphabet.crypt.char a.toNat, Alphabet.crypt.char b.toNat]
    else .error .invalid
  | _ => .error .invalid

end Descrypt

end PassHash
