import PassHash.Bytes

/-!
# Mixtures

MD5-crypt and SHA-crypt stretch a phrase in the same way: a byte string mixed from phrase, salt and
the digest so far is hashed again and again, with ingredients that change from round to round.

## Contents

- `Mixture.ofBits`: one of two ingredients for every bit of a number
- `Mixture.ofRound`: the mixture of a round
- `Mixture.stretch`: the digest after a number of rounds
-/

namespace PassHash

namespace Mixture

/-- For every bit of `n`, from the lowest to the highest that is set, `set` or `clear`. -/
def ofBits (set clear : Bytes) (n : Nat) : Bytes :=
  if n = 0 then [] else (if n % 2 = 1 then set else clear) ++ ofBits set clear (n / 2)

/-- The mixture of round `i`: the phrase sequence first in odd rounds and last in even ones, the
    digest so far at the other end, and between them the salt sequence except in every third round
    and the phrase sequence except in every seventh. -/
def ofRound (phrase salt digest : Bytes) (i : Nat) : Bytes :=
  (if i % 2 = 1 then phrase else digest) ++ (if i % 3 = 0 then [] else salt) ++
    (if i % 7 = 0 then [] else phrase) ++ (if i % 2 = 1 then digest else phrase)

/-- The digest after a number of rounds. -/
def stretch (hash : Bytes → Bytes) (phrase salt : Bytes) (rounds : Nat) (start : Bytes) : Bytes :=
  Nat.fold rounds (fun i _ digest => hash (ofRound phrase salt digest i)) start

end Mixture

end PassHash
