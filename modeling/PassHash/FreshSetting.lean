import PassHash.Entropy
import PassHash.Hashing

/-!
# Fresh Settings

A fresh setting is made for the method that a prefix selects, or for the preferred one, from a cost
and random bytes. If the caller has none, the bytes that the method asks for are drawn from a
source.

## Contents

- `FreshSetting.Request`: prefix, cost and random bytes
- `FreshSetting.text`: the setting for a request
- `FreshSetting.run`: the same over an output area
- `FreshSetting.generate`: the same in an area that fits every setting
-/

namespace PassHash

namespace FreshSetting

/-- What a setting is requested with. Without `lead` the preferred method is used, with a count of
    zero its default cost, and without `random` the source is asked. -/
structure Request where
  lead : Option Bytes
  count : Nat
  random : Option Bytes

namespace Request

/-- The method that is requested. -/
def method? (q : Request) : Option Method :=
  match q.lead with
  | some lead => Method.ofSetting? lead.beforeNul
  | none => some .preferred

end Request

/-- The bytes of the largest setting, terminator included. -/
def maxSize : Nat := 192

/-- The setting for a request, given an area of `capacity` bytes. -/
def text (source : Entropy) (capacity : Nat) (q : Request) : Except Failure Bytes := do
  Room.need capacity 3
  let m ← Failure.orInvalid q.method?
  let random ←
    match q.random with
    | some random => pure random
    | none => source.draw m.randomBytes
  m.generate capacity q.count random

/-- The setting for a request, and the output area afterwards, with the setting or the failure token
    at its start. -/
def run (source : Entropy) (area : Bytes) (q : Request) : Except Failure Bytes × Bytes :=
  let (result, area) := Area.settle (Token.stamp [] area) (text source area.length q)
  (result.bind fun _ => Hashing.read area, area)

/-- The setting for a request. -/
def generate (source : Entropy) (q : Request) : Except Failure Bytes :=
  (run source (List.replicate maxSize 0) q).1

end FreshSetting

end PassHash
