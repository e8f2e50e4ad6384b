/-!
# Failures

Why a request is refused. There are four causes; each has a fixed message and the number that
system interfaces use for it.

## Main statements

- `Failure.message_inj`, `Failure.errno_inj`: message and number tell the causes apart
-/

namespace PassHash

/-- The causes for which a hash or a setting is refused. -/
inductive Failure
  /-- A setting, a prefix or another argument is malformed or out of range. -/
  | invalid
  /-- An output or scratch area, or a bound on the phrase, is too small. -/
  | range
  /-- The memory that the cost parameters ask for is not available. -/
  | noMemory
  /-- The operating system delivers no random bytes. -/
  | noEntropy
  deriving DecidableEq, Repr

namespace Failure

/-- One line for a reader. -/
def message : Failure → String
  | invalid => "Invalid setting or argument"
  | range => "Output or scratch buffer too small"
  | noMemory => "Memory allocation failed"
  | noEntropy => "Operating system random source unavailable"

/-- The system's error number for the cause. -/
def errno : Failure → Nat
  | invalid => 22
  | range => 34
  | noMemory => 12
  | noEntropy => 5

theorem message_inj {a b : Failure} : a.message = b.message ↔ a = b := by
  cases a <;> cases b <;> decide

theorem errno_inj {a b : Failure} : a.errno = b.errno ↔ a = b := by
  cases a <;> cases b <;> decide

/-- The value of an optional result, whose absence means an invalid argument. -/
def orInvalid {α : Type} : Option α → Except Failure α
  | some a => .ok a
  | none => .error .invalid

/-- Refuses with `invalid` unless the condition holds. -/
def unlessInvalid (c : Bool) : Except Failure Unit := if c then .ok () else .error .invalid

end Failure

end PassHash
