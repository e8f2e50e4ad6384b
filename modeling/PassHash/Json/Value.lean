import PassHash.Json.Literal

/-!
# JSON Values

Values keep the order of members, numbers as they are written and strings as literals, so no part of
a document is refused before someone asks what it means.

## Contents

- `Value`: documents
- `Value.compact`: a document on one line, without spaces
- `Value.pretty`: a document on several lines, indented by two spaces
- `Value.text?`, `Value.natural?`: what strings and numbers mean
-/

namespace PassHash

namespace Json

/-- A JSON document. -/
inductive Value
  | null
  | bool (b : Bool)
  /-- A number, as it is written. -/
  | number (written : Bytes)
  | string (l : Literal)
  | list (items : List Value)
  | object (members : List (Literal × Value))

namespace Value

/-! ## Construction -/

/-- The string of a text. -/
def ofText (text : Bytes) : Value := string (.ofBytes text)

/-- The number of a natural number. -/
def ofNat (n : Nat) : Value := number (Bytes.decimal n)

/-- The object of the given members, in order. -/
def ofMembers (members : List (String × Value)) : Value :=
  object (members.map fun (name, v) => (.ofBytes (Bytes.ofString name), v))

/-! ## Meaning -/

/-- The text of a string. -/
def text? : Value → Option Bytes
  | string l => l.text?
  | _ => none

/-- The natural number that is written with digits alone. -/
def natural? : Value → Option Nat
  | number written =>
    if written.all Bytes.isDigit then some (Bytes.decimalValue written) else none
  | _ => none

/-! ## Printing -/

/-- The keyword of a truth value. -/
def boolWord (b : Bool) : Bytes := if b then Bytes.ascii "true" else Bytes.ascii "false"

def openBrace : UInt8 := '\x7b'.toUInt8

def closeBrace : UInt8 := '\x7d'.toUInt8

mutual

/-- A document on one line. -/
def compact : Value → Bytes
  | null => Bytes.ascii "null"
  | bool b => boolWord b
  | number written => written
  | string l => l.toBytes
  | list items => Bytes.ascii "[" ++ compactItems items ++ Bytes.ascii "]"
  | object members => [openBrace] ++ compactMembers members ++ [closeBrace]

/-- Items with commas between them. -/
def compactItems : List Value → Bytes
  | [] => []
  | [v] => compact v
  | v :: more => compact v ++ Bytes.ascii "," ++ compactItems more

/-- Members with commas between them. -/
def compactMembers : List (Literal × Value) → Bytes
  | [] => []
  | [(name, v)] => name.toBytes ++ Bytes.ascii ":" ++ compact v
  | (name, v) :: more =>
    name.toBytes ++ Bytes.ascii ":" ++ compact v ++ Bytes.ascii "," ++ compactMembers more

end

/-- A line end and the indentation of the next line. -/
def newLine (depth : Nat) : Bytes := 0x0a :: List.replicate (2 * depth) 0x20

mutual

/-- A document on several lines, the first of which is indented already. -/
def prettyAt (depth : Nat) : Value → Bytes
  | null => Bytes.ascii "null"
  | bool b => boolWord b
  | number written => written
  | string l => l.toBytes
  | list [] => Bytes.ascii "[]"
  | list (v :: more) =>
    Bytes.ascii "[" ++ newLine (depth + 1) ++ prettyAt (depth + 1) v ++
      prettyItems (depth + 1) more ++ newLine depth ++ Bytes.ascii "]"
  | object [] => [openBrace, closeBrace]
  | object ((name, v) :: more) =>
    [openBrace] ++ newLine (depth + 1) ++ name.toBytes ++ Bytes.ascii ": " ++
      prettyAt (depth + 1) v ++ prettyMembers (depth + 1) more ++ newLine depth ++ [closeBrace]

/-- Further items of a list. -/
def prettyItems (depth : Nat) : List Value → Bytes
  | [] => []
  | v :: more => Bytes.ascii "," ++ newLine depth ++ prettyAt depth v ++ prettyItems depth more

/-- Further members of an object. -/
def prettyMembers (depth : Nat) : List (Literal × Value) → Bytes
  | [] => []
  | (name, v) :: more =>
    Bytes.ascii "," ++ newLine depth ++ name.toBytes ++ Bytes.ascii ": " ++ prettyAt depth v ++
      prettyMembers depth more

end

/-- A document on several lines. -/
def pretty (v : Value) : Bytes := prettyAt 0 v

end Value

end Json

end PassHash
