import PassHash.Json.Value

/-!
# Reading JSON

A document is one value with blanks around it. The reader accepts the grammar of JSON and nothing
else: no comma before a closing bracket, no leading zero, no text after the value.

## Contents

- `blanks`, `number?`: blanks and numbers
- `value?`, `items?`, `members?`: a value at the start of an input
- `parse?`: a document
-/

namespace PassHash

namespace Json

/-! ## Blanks and numbers -/

/-- Whether a byte is a space, a tab, a line feed or a carriage return. -/
def isBlank (c : UInt8) : Bool := c == 0x20 || c == 0x09 || c == 0x0a || c == 0x0d

/-- The input without the blanks at its start. -/
def blanks (s : Bytes) : Bytes := s.dropWhile isBlank

/-- The digits at the start of an input, of which there is at least one, and what follows them. -/
def digits? (s : Bytes) : Option (Bytes × Bytes) :=
  match s.digitRun with
  | [] => none
  | digits => some (digits, s.dropWhile Bytes.isDigit)

/-- The digits of an integer, which has no leading zero, and what follows them. -/
def integer? (s : Bytes) : Option (Bytes × Bytes) :=
  match s with
  | 0x30 :: c :: rest => if Bytes.isDigit c then none else some ([0x30], c :: rest)
  | s => digits? s

/-- The decimal point and the digits behind it, if there is a point. -/
def fraction? (s : Bytes) : Option (Bytes × Bytes) :=
  match s with
  | 0x2e :: rest => (digits? rest).map fun (digits, rest) => (0x2e :: digits, rest)
  | s => some ([], s)

/-- A sign at the start of an input, if it is one of the given ones, and what follows it. -/
def sign (signs : Bytes) (s : Bytes) : Bytes × Bytes :=
  match s with
  | c :: rest => if signs.contains c then ([c], rest) else ([], s)
  | [] => ([], [])

/-- The exponent with its letter, if there is one. -/
def exponent? (s : Bytes) : Option (Bytes × Bytes) :=
  match sign (Bytes.ascii "eE") s with
  | ([], s) => some ([], s)
  | (letter, s) =>
    let (sign, s) := sign (Bytes.ascii "+-") s
    (digits? s).map fun (digits, rest) => (letter ++ sign ++ digits, rest)

/-- The number at the start of an input, and what follows it. -/
def number? (s : Bytes) : Option (Value × Bytes) := do
  let (minus, s) := sign (Bytes.ascii "-") s
  let (whole, s) ← integer? s
  let (part, s) ← fraction? s
  let (power, s) ← exponent? s
  pure (.number (minus ++ whole ++ part ++ power), s)

/-- The keyword at the start of an input, and what follows it. -/
def keyword? (s : Bytes) : Option (Value × Bytes) :=
  [("null", Value.null), ("true", .bool true), ("false", .bool false)].findSome? fun (word, v) =>
    (Bytes.after? (Bytes.ascii word) s).map (v, ·)

/-! ## Values -/

mutual

/-- The value at the start of an input, and what follows it. -/
def value? : (fuel : Nat) → Bytes → Option (Value × Bytes)
  | 0, _ => none
  | fuel + 1, s =>
    match blanks s with
    | [] => none
    | c :: rest =>
      if c = '['.toUInt8 then
        match blanks rest with
        | [] => none
        | d :: more =>
          -- the empty list apart, an item has to follow
          if d = ']'.toUInt8 then some (.list [], more)
          else (items? fuel rest).map fun (items, rest) => (.list items, rest)
      else if c = Value.openBrace then
        match blanks rest with
        | [] => none
        | d :: more =>
          if d = Value.closeBrace then some (.object [], more)
          else (members? fuel rest).map fun (members, rest) => (.object members, rest)
      else if c = Literal.quoteMark then
        (Literal.readPieces? rest).map fun (l, rest) => (.string l, rest)
      else (number? (c :: rest)).orElse fun _ => keyword? (c :: rest)

/-- The items up to the end of a list, at least one, and what follows the list. -/
def items? : (fuel : Nat) → Bytes → Option (List Value × Bytes)
  | 0, _ => none
  | fuel + 1, s => do
    let (v, rest) ← value? fuel s
    match blanks rest with
    | [] => none
    | c :: rest =>
      if c = ']'.toUInt8 then some ([v], rest)
      else if c = ','.toUInt8 then (items? fuel rest).map fun (items, rest) => (v :: items, rest)
      else none

/-- The members up to the end of an object, at least one, and what follows the object. -/
def members? : (fuel : Nat) → Bytes → Option (List (Literal × Value) × Bytes)
  | 0, _ => none
  | fuel + 1, s => do
    let (name, rest) ← Literal.read? (blanks s)
    let rest ← Bytes.after? (Bytes.ascii ":") (blanks rest)
    let (v, rest) ← value? fuel rest
    match blanks rest with
    | [] => none
    | c :: rest =>
      if c = Value.closeBrace then some ([(name, v)], rest)
      else if c = ','.toUInt8 then
        (members? fuel rest).map fun (members, rest) => ((name, v) :: members, rest)
      else none

end

/-- The document that an input consists of. Twice its length is more than the steps that any value
    in it takes, because every second step consumes a byte. -/
def parse? (s : Bytes) : Option Value := do
  let (v, rest) ← value? (2 * s.length + 1) s
  if blanks rest = [] then some v else none

end Json

end PassHash
