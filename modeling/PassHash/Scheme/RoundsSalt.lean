import PassHash.Scheme.Field

/-!
# Fresh Settings with Rounds

MD5-crypt, SHA-crypt and SM3-crypt share the form `$tag$[rounds=N$]salt` of fresh settings. The
number of rounds is clamped into the scheme's bounds and left out when it is the default; the salt
grows with the random bytes up to the scheme's limit and the room in the output.

## Contents

- `RoundsSalt`: what the schemes differ in
- `RoundsSalt.generate`: a fresh setting
-/

namespace PassHash

/-- Marker, longest salt and bounds on the rounds of a scheme. -/
structure RoundsSalt where
  tag : Bytes
  maxSalt : Nat
  defaultRounds : Nat
  minRounds : Nat
  maxRounds : Nat

namespace RoundsSalt

/-- The rounds for a requested count, zero meaning the default. -/
def rounds (s : RoundsSalt) (count : Nat) : Nat :=
  max s.minRounds (min (if count = 0 then s.defaultRounds else count) s.maxRounds)

/-- The field that states the rounds, if they are not the default. -/
def roundsField (s : RoundsSalt) (rounds : Nat) : Bytes :=
  if rounds = s.defaultRounds then []
  else Bytes.ascii "rounds=" ++ Bytes.decimal rounds ++ [Field.dollar]

/-- How many powers of ten, from 10 on, lie below `n`. -/
def tensBelow (n : Nat) : Nat := if n ≤ 10 then 0 else tensBelow ((n + 9) / 10) + 1

/-- The bytes that a setting with one group of salt may take, its terminator included. -/
def leastCapacity (s : RoundsSalt) (rounds : Nat) : Nat :=
  s.tag.length + 5 + (if rounds = s.defaultRounds then 0 else 9 + tensBelow rounds)

/-- A fresh setting. -/
def generate (s : RoundsSalt) (capacity count : Nat) (random : Bytes) : Except Failure Bytes := do
  Failure.unlessInvalid (3 ≤ random.length)
  let rounds := s.rounds count
  Room.need capacity (s.leastCapacity rounds)
  let head := s.tag ++ s.roundsField rounds
  let more (written : Nat) : Bool :=
    head.length + written + 5 < capacity && written < s.maxSalt
  Room.fit capacity (head ++ Field.freshSalt List.reverse more 0 random)

end RoundsSalt

end PassHash
