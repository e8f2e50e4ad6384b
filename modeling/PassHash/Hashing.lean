import PassHash.Method
import PassHash.Token

/-!
# Hashing into an Output Area

Every entry point for hashing comes down to one routine. It stamps the output area with the failure
token, checks phrase and setting, and lets the selected method overwrite the token.

## Contents

- `Setting.hasForbidden`: characters that no setting may contain
- `Hashing.text`: the hash of a phrase, or why there is none
- `Hashing.run`: the same over an output area

## Main statements

- `Hashing.length_run`: the area keeps its size
-/

namespace PassHash

namespace Setting

/-- Whether a character is forbidden in settings: control characters, space, DEL and above, and
    `! * : ; \`. -/
def isForbidden (c : UInt8) : Bool := c ≤ 0x20 || 0x7f ≤ c || (Bytes.ascii "!*:;\\").contains c

/-- Whether a setting contains a forbidden character. -/
def hasForbidden (setting : Bytes) : Bool := setting.any isForbidden

end Setting

namespace Hashing

/-- The longest phrase. -/
def maxPhrase : Nat := 511

/-- The bytes of scratch that a method gets. -/
def scratchSize : Nat := 8192

/-- The hash of a phrase under a setting, given an output area of `capacity` bytes. -/
def text (capacity : Nat) (phrase setting : Bytes) : Except Failure Bytes := do
  Room.need maxPhrase phrase.length
  Failure.unlessInvalid (!Setting.hasForbidden setting)
  let m ← Failure.orInvalid (Method.ofSetting? setting)
  m.hash ⟨capacity, scratchSize⟩ phrase setting

/-- The text in an area, up to its terminator. -/
def read (area : Bytes) : Except Failure Bytes :=
  let text := area.beforeNul
  if text.isUtf8 then .ok text else .error .invalid

/-- The hash of a phrase under a setting, both up to their first NUL, and the output area
    afterwards. -/
def run (area phrase setting : Bytes) : Except Failure Bytes × Bytes :=
  let setting := setting.beforeNul
  let (result, area) := Area.settle (Token.stamp setting area)
    (text area.length phrase.beforeNul setting)
  (result.bind fun _ => read area, area)

theorem length_run (area phrase setting : Bytes) :
    (run area phrase setting).2.length = area.length := by
  simp [run, Area.length_settle, Token.length_stamp]

end Hashing

end PassHash
