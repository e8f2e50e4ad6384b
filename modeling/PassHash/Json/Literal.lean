import PassHash.Bytes

/-!
# String Literals

A JSON string literal is a sequence of pieces: bytes, written as they are or by a short escape, and
units of UTF-16 written by number. Not every literal stands for a text: units may be unpaired, and
bytes malformed.

## Contents

- `Literal`, `Literal.Piece`: literals
- `Literal.ofBytes`, `Literal.toBytes`: the literal of a text, and how it is written
- `Literal.read?`: the literal at the start of an input
- `Literal.text?`: the text that a literal stands for

## Main statements

- `Literal.text?_ofBytes`: the literal of a text stands for it
-/

namespace PassHash

namespace Json

namespace Literal

/-- Part of a literal. -/
inductive Piece
  | byte (b : UInt8)
  /-- A unit of UTF-16, by its number. -/
  | unit (n : Nat)
  deriving DecidableEq, Repr

end Literal

/-- What stands between the quotes of a string literal. -/
abbrev Literal := List Literal.Piece

namespace Literal

def quoteMark : UInt8 := '"'.toUInt8

def backslash : UInt8 := '\\'.toUInt8

/-! ## Writing -/

/-- The letter of the short escape for a byte. -/
def shortEscape? (b : UInt8) : Option UInt8 :=
  if b = quoteMark ∨ b = backslash then some b
  else if b = 0x08 then some 'b'.toUInt8
  else if b = 0x09 then some 't'.toUInt8
  else if b = 0x0a then some 'n'.toUInt8
  else if b = 0x0c then some 'f'.toUInt8
  else if b = 0x0d then some 'r'.toUInt8
  else none

/-- Four hexadecimal digits. -/
def hexDigits (n : Nat) : Bytes :=
  [n / 4096, n / 256, n / 16, n].map fun d => (Nat.digitChar (d % 16)).toUInt8

/-- A piece as it is written. Control characters are escaped, other bytes stand as they are. -/
def Piece.toBytes : Piece → Bytes
  | .unit n => [backslash, 'u'.toUInt8] ++ hexDigits n
  | .byte b =>
    match shortEscape? b with
    | some letter => [backslash, letter]
    | none => if b < 0x20 then [backslash, 'u'.toUInt8] ++ hexDigits b.toNat else [b]

/-- The literal of a text. -/
def ofBytes (text : Bytes) : Literal := text.map .byte

/-- A literal as it is written, with its quotes. -/
def toBytes (l : Literal) : Bytes := quoteMark :: l.flatMap Piece.toBytes ++ [quoteMark]

/-! ## Reading -/

/-- The byte that the letter of a short escape stands for. -/
def ofShortEscape? (letter : UInt8) : Option UInt8 :=
  if letter = quoteMark ∨ letter = backslash ∨ letter = '/'.toUInt8 then some letter
  else if letter = 'b'.toUInt8 then some 0x08
  else if letter = 't'.toUInt8 then some 0x09
  else if letter = 'n'.toUInt8 then some 0x0a
  else if letter = 'f'.toUInt8 then some 0x0c
  else if letter = 'r'.toUInt8 then some 0x0d
  else none

/-- The value of a hexadecimal digit. -/
def hexValue? (c : UInt8) : Option Nat :=
  if 0x30 ≤ c ∧ c ≤ 0x39 then some (c - 0x30).toNat
  else if 0x41 ≤ c ∧ c ≤ 0x46 then some (c - 0x41 + 10).toNat
  else if 0x61 ≤ c ∧ c ≤ 0x66 then some (c - 0x61 + 10).toNat
  else none

/-- The unit of four hexadecimal digits. -/
def hexUnit? (a b c d : UInt8) : Option Nat := do
  let a ← hexValue? a
  let b ← hexValue? b
  let c ← hexValue? c
  let d ← hexValue? d
  pure (4096 * a + 256 * b + 16 * c + d)

/-- A piece put in front of a literal that was read. -/
def cons? (piece : Option Piece) (read : Option (Literal × Bytes)) : Option (Literal × Bytes) := do
  let p ← piece
  let (l, rest) ← read
  pure (p :: l, rest)

/-- The pieces up to the closing quote, and what follows it. -/
def readPieces? : Bytes → Option (Literal × Bytes)
  | [] => none
  | c :: s =>
    if c = quoteMark then some ([], s)
    else if c = backslash then
      match s with
      | [] => none
      | letter :: s =>
        if letter = 'u'.toUInt8 then
          match s with
          | a :: b :: c :: d :: s => cons? ((hexUnit? a b c d).map .unit) (readPieces? s)
          | _ => none
        else cons? ((ofShortEscape? letter).map .byte) (readPieces? s)
    else if c < 0x20 then none
    else cons? (some (.byte c)) (readPieces? s)

/-- The literal at the start of an input, and what follows it. -/
def read? : Bytes → Option (Literal × Bytes)
  | [] => none
  | c :: s => if c = quoteMark then readPieces? s else none

/-! ## Meaning -/

/-- Whether a unit is the first of a pair. -/
def isHigh (n : Nat) : Bool := 0xd800 ≤ n && n < 0xdc00

/-- Whether a unit is the second of a pair. -/
def isLow (n : Nat) : Bool := 0xdc00 ≤ n && n < 0xe000

/-- The character of a pair of units. -/
def pairChar (high low : Nat) : Char :=
  Char.ofNat (0x10000 + 1024 * (high - 0xd800) + (low - 0xdc00))

/-- The bytes that the pieces stand for, if all units are paired. -/
def join? : Literal → Option Bytes
  | [] => some []
  | .byte b :: l => (join? l).map (b :: ·)
  | .unit n :: l =>
    if isHigh n then
      match l with
      | .unit m :: l =>
        if isLow m then (join? l).map (Bytes.ofString (pairChar n m).toString ++ ·) else none
      | _ => none
    else if isLow n then none
    else (join? l).map (Bytes.ofString (Char.ofNat n).toString ++ ·)

/-- The text that a literal stands for. -/
def text? (l : Literal) : Option Bytes := (join? l).filter Bytes.isUtf8

/-! ## Laws -/

theorem text?_ofBytes {text : Bytes} (h : text.isUtf8 = true) :
    text? (ofBytes text) = some text := by
  have join (b : Bytes) : join? (ofBytes b) = some b := by
    induction b with
    | nil => rfl
    | cons c b ih => simpa [ofBytes, join?] using ih
  simp [text?, join, h]

end Literal

end Json

end PassHash
