import PassHash.Base64.Alphabet

/-!
# Numbers of Variable Length

Cost parameters in yescrypt settings take one to six characters. The first character tells how many
follow and carries the highest digits; the others carry six bits each, the most significant first.
The alphabet is split into ranges of first characters: 48 characters stand alone, 8 are followed by
one more, 4 by two, 2 by three, and the last two by four and five. Each range starts counting where
the one before it ends, so a number has one written form.

## Contents

- `LeadRange`, `leadRanges`: the ranges of first characters
- `writeNumber?`, `readNumber?`: a number at or above a lower bound
-/

namespace PassHash

namespace Base64

/-- A range of first characters: its first value, how many there are, and how many characters
    follow each of them. -/
structure LeadRange where
  first : Nat
  count : Nat
  tail : Nat
  deriving DecidableEq, Repr

namespace LeadRange

/-- How many numbers the range writes. -/
def span (r : LeadRange) : Nat := r.count <<< (6 * r.tail)

end LeadRange

/-- The ranges in order; together they use every character once. -/
def leadRanges : List LeadRange :=
  [⟨0, 48, 0⟩, ⟨48, 8, 1⟩, ⟨56, 4, 2⟩, ⟨60, 2, 3⟩, ⟨62, 1, 4⟩, ⟨63, 1, 5⟩]

/-- The `n` lowest base-64 digits of a number, the highest of them first. -/
def digitsHigh : (n v : Nat) → Bytes
  | 0, _ => []
  | n + 1, v => Alphabet.crypt.char (v >>> (6 * n)) :: digitsHigh n v

/-- The number that exactly these base-64 digits stand for, the highest first, after the digits
    already read. -/
def numberHigh? : (acc : Nat) → Bytes → Option Nat
  | acc, [] => some acc
  | acc, c :: s => do
    let v ← Alphabet.crypt.value? c
    numberHigh? (64 * acc + v) s

/-- The characters for an offset counted from the start of the given ranges. -/
def writeOffset? : List LeadRange → Nat → Option Bytes
  | [], _ => none
  | r :: ranges, v =>
    if v < r.span then
      some (Alphabet.crypt.char (r.first + (v >>> (6 * r.tail))) :: digitsHigh r.tail v)
    else writeOffset? ranges (v - r.span)

/-- The offset that a first character and what follows it stand for, and how many characters that
    takes. -/
def readOffset? : List LeadRange → (lead : Nat) → Bytes → Option (Nat × Nat)
  | [], _, _ => none
  | r :: ranges, lead, s =>
    if lead < r.first + r.count then
      if s.length < r.tail then none
      else (numberHigh? (lead - r.first) (s.take r.tail)).map (·, r.tail + 1)
    else (readOffset? ranges lead s).map fun (v, n) => (r.span + v, n)

/-- A number with the lower bound `least`, if it is not below it and not too large. -/
def writeNumber? (least v : Nat) : Option Bytes :=
  if v < least then none else writeOffset? leadRanges (v - least)

/-- The number with the lower bound `least` at the start of a text, and how many characters it
    takes. -/
def readNumber? (least : Nat) : Bytes → Option (Nat × Nat)
  | [] => none
  | c :: s => do
    let lead ← Alphabet.crypt.value? c
    let (v, n) ← readOffset? leadRanges lead s
    pure (least + v, n)

end Base64

end PassHash
