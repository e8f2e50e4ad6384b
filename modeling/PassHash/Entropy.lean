import PassHash.Bytes
import PassHash.Failure

/-!
# Entropy

Random bytes for fresh settings. Where they come from is left to the caller: a source is asked for a
number of bytes and either delivers as many or is unavailable.

## Main statements

- `Entropy.length_of_draw`: what is drawn has the length asked for
-/

namespace PassHash

/-- A source of random bytes. -/
abbrev Entropy := (size : Nat) → Option Bytes

namespace Entropy

/-- The most bytes of one request. -/
def maxRequest : Nat := 256

/-- Random bytes. Too large a request is refused, and so is one that the source does not meet. -/
def draw (source : Entropy) (size : Nat) : Except Failure Bytes :=
  if size = 0 then .ok []
  else if maxRequest < size then .error .noEntropy
  else
    match source size with
    | some bytes => if bytes.length = size then .ok bytes else .error .noEntropy
    | none => .error .noEntropy

theorem length_of_draw {source : Entropy} {size : Nat} {bytes : Bytes}
    (h : source.draw size = .ok bytes) : bytes.length = size := by
  unfold draw at h
  split at h
  · next h0 => cases h; exact h0.symm
  · split at h
    · cases h
    · split at h
      · split at h
        · next hl => cases h; exact hl
        · cases h
      · cases h

end Entropy

end PassHash
