import PassHash.Area
import PassHash.Base64.HighFirst
import PassHash.Cipher.Blowfish
import PassHash.Scheme.Field

/-!
# Bcrypt

`$2b$NN$`, 22 characters of salt and 31 of digest. Four variants differ in what they make of bytes
with the top bit set: `$2x$` extends their sign over the bytes before them in a word, `$2a$` changes
a bit of the key for phrases that the extension would have made weak, `$2b$` and `$2y$` take bytes
as they are.

## Contents

- `Bcrypt.Variant`, `Bcrypt.Setting`, `Bcrypt.parse?`: variant, cost and salt
- `Bcrypt.Keys.ofPhrase`: the key words of a phrase
- `Bcrypt.hash`, `Bcrypt.generate`: hashing and fresh settings
-/

namespace PassHash

namespace Bcrypt

open Base64

/-! ## Settings -/

/-- The variants, named by the letter in their marker. -/
inductive Variant
  | a
  | b
  | x
  | y
  deriving DecidableEq, Repr

namespace Variant

/-- The letter of a variant. -/
def letter : Variant → UInt8
  | a => 'a'.toUInt8
  | b => 'b'.toUInt8
  | x => 'x'.toUInt8
  | y => 'y'.toUInt8

/-- The variant of a letter. -/
def ofLetter? (c : UInt8) : Option Variant := [a, b, x, y].find? (·.letter == c)

/-- The marker of a variant. -/
def tag (v : Variant) : Bytes := Bytes.ascii "$2" ++ [v.letter, Field.dollar]

end Variant

/-- The least cost. -/
def minCost : Nat := 4

/-- The greatest cost. -/
def maxCost : Nat := 31

/-- The characters of a salt. -/
def saltLength : Nat := 22

/-- The characters of a setting. -/
def settingLength : Nat := 7 + saltLength

/-- Variant, binary logarithm of the number of expansions, and salt. -/
structure Setting where
  variant : Variant
  cost : Nat
  salt : Bytes
  deriving DecidableEq, Repr

/-- The two-digit cost at the start of a text, and the text after its separator. -/
def cost? (s : Bytes) : Option (Nat × Bytes) :=
  match s with
  | tens :: ones :: c :: rest =>
    let n := Bytes.decimalValue [tens, ones]
    if Bytes.isDigit tens ∧ Bytes.isDigit ones ∧ c = Field.dollar ∧ minCost ≤ n ∧ n ≤ maxCost then
      some (n, rest)
    else none
  | _ => none

/-- The parts of a setting; what follows its 29 characters does not matter. -/
def parse? (setting : Bytes) : Option Setting := do
  match ← Bytes.after? (Bytes.ascii "$2") setting with
  | letter :: rest =>
    let variant ← Variant.ofLetter? letter
    let rest ← Bytes.after? [Field.dollar] rest
    let (cost, rest) ← cost? rest
    let salt ← decodeExactly? .bcrypt 16 (rest.take saltLength)
    pure ⟨variant, cost, salt⟩
  | [] => none

/-! ## Keys -/

/-- The key words of a phrase: for every expansion, and for the first. -/
structure Keys where
  expanded : List UInt32
  initial : List UInt32
  deriving DecidableEq, Repr

namespace Keys

/-- The bytes of a key: the phrase and its terminator, over and over. -/
def cycle (phrase : Bytes) : Bytes := Bytes.recycle (phrase ++ [0]) 72

/-- A byte with its sign extended to a word. -/
def signExtend (c : UInt8) : UInt32 := c.toInt8.toInt32.toUInt32

/-- The words of a key, each made by shifting in one byte after the other. -/
def words (widen : UInt8 → UInt32) : Bytes → List UInt32
  | a :: b :: c :: d :: rest =>
    [a, b, c, d].foldl (fun w byte => (w <<< 8) ||| widen byte) 0 :: words widen rest
  | _ => []

/-- The top bits, as bit 7, of the bytes that do not start a word. -/
def innerSigns : Bytes → UInt32
  | _ :: b :: c :: d :: rest => ((b ||| c ||| d) &&& 0x80).toUInt32 ||| innerSigns rest
  | _ => 0

/-- The bit that the first word of the first expansion is changed by, without a branch on the key:
    bit 16, if sign extension makes no difference to any word and yet some byte within a word has
    its top bit set. -/
def countermeasure (key : Bytes) : UInt32 :=
  let diff := (List.zipWith (· ^^^ ·) (words UInt8.toUInt32 key) (words signExtend key)).foldl
    (· ||| ·) 0
  -- bit 16 of the sum is set exactly if any bit of the difference was
  let diff := ((diff ||| (diff >>> 16)) &&& 0xffff) + 0xffff
  -- nine places up, bit 7 of the signs is bit 16
  (innerSigns key <<< 9) &&& (~~~diff &&& 0x10000)

/-- The list with a bit mask added to its first word. -/
def flipFirst (mask : UInt32) : List UInt32 → List UInt32
  | [] => []
  | w :: ws => (w ^^^ mask) :: ws

/-- The key words of a phrase for a variant. -/
def ofPhrase (v : Variant) (phrase : Bytes) : Keys :=
  let key := cycle phrase
  match v with
  | .x => ⟨words signExtend key, words signExtend key⟩
  | .a => ⟨words UInt8.toUInt32 key, flipFirst (countermeasure key) (words UInt8.toUInt32 key)⟩
  | .b | .y => ⟨words UInt8.toUInt32 key, words UInt8.toUInt32 key⟩

end Keys

/-! ## Digests -/

/-- The text that is encrypted, as three blocks. -/
def magic : List (UInt32 × UInt32) :=
  [(0x4f727068, 0x65616e42), (0x65686f6c, 0x64657253), (0x63727944, 0x6f756274)]

/-- The cipher after the key and the salt were expanded into it `2 ^ cost` times. -/
def prepared (cost : Nat) (salt : Bytes) (keys : Keys) : Blowfish.State :=
  let salt := (Word.wordsBE32 salt).toArray
  let key := keys.expanded.toArray
  let noSalt := Blowfish.State.noSalt
  -- key and salt take turns; only the first expansion uses both at once
  Nat.fold (1 <<< cost) (fun _ _ st => (st.expand noSalt key).expand noSalt salt)
    (Blowfish.State.start.expand salt keys.initial.toArray)

/-- The digest of a phrase: the blocks of the text, each encrypted 64 times. -/
def digest (s : Setting) (phrase : Bytes) : Bytes :=
  let cipher := prepared s.cost s.salt (.ofPhrase s.variant phrase)
  magic.flatMap fun (l, r) =>
    let (l, r) := Nat.fold 64 (fun _ _ (l, r) => cipher.encrypt l r) (l, r)
    Word.bytesBE32 l ++ Word.bytesBE32 r

/-! ## Hashing -/

/-- The characters of a hash. -/
def hashLength : Nat := settingLength + 31

/-- The hash of a phrase: the setting with its salt in canonical form, and 23 bytes of digest. -/
def hash (room : Room) (phrase setting : Bytes) : Except Failure Bytes := do
  Room.need room.output (hashLength + 1)
  Room.need room.scratch 144
  let s ← Failure.orInvalid (parse? setting)
  -- the last character of the salt carries four bits that do not count
  let last ← Failure.orInvalid (setting[settingLength - 1]?.bind (canonicalTail? .bcrypt))
  Room.fit room.output (setting.take (settingLength - 1) ++ [last] ++
    encodeHigh .bcrypt ((digest s phrase).take 23))

/-- The cost of a fresh setting, 5 for zero. -/
def freshCost? (count : Nat) : Option Nat :=
  if count = 0 then some 5 else if minCost ≤ count ∧ count ≤ maxCost then some count else none

/-- A number below a hundred in two digits. -/
def twoDigits (n : Nat) : Bytes := Bytes.decimal (n / 10) ++ Bytes.decimal (n % 10)

/-- A fresh setting from sixteen random bytes. There are none for `$2x$`, which serves to check old
    hashes. -/
def generate (v : Variant) (capacity count : Nat) (random : Bytes) : Except Failure Bytes := do
  Room.need capacity (settingLength + 1)
  let cost ← Failure.orInvalid (freshCost? count)
  Failure.unlessInvalid (16 ≤ random.length && v != .x)
  Room.fit capacity
    (v.tag ++ twoDigits cost ++ [Field.dollar] ++ encodeHigh .bcrypt (random.take 16))

end Bcrypt

end PassHash
