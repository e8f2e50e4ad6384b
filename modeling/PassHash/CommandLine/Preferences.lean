import PassHash.Json.Reader

/-!
# Preferences

What an operator sets for the command line in a JSON file: the method and the cost of fresh
settings, and which log lines to show. Each preference may be left out.

## Contents

- `Preferences`: the preferences and their defaults
- `Preferences.ofJson?`: the preferences in a document
- `Source`, `Source.preferences`: the preferences in a file

## Main statements

- `Preferences.ofJson?_object_nil`, `Preferences.ofJson?_list_nil`: an empty document leaves every
  preference at its default
-/

namespace PassHash

namespace CommandLine

/-! ## Documents -/

/-- The preferences of an operator. -/
structure Preferences where
  /-- Selects the method of fresh settings; by default it is the preferred one. -/
  lead? : Option Bytes
  /-- The cost of fresh settings; zero is the default cost of the method. -/
  count : Nat
  /-- Selects the log lines that are shown. -/
  logFilter : Bytes
  deriving DecidableEq, Repr

namespace Preferences

/-- The preferences that hold without a file. -/
def default : Preferences := ⟨none, 0, Bytes.ascii "warn"⟩

/-- The names of the preferences in a document, in the order in which a list gives them. -/
def fields : List String := ["default_prefix", "default_count", "log_filter"]

/-- A text, or `null` for none. -/
def lead?OfJson? : Json.Value → Option (Option Bytes)
  | .null => some none
  | v => v.text?.map some

/-- A number of 64 bits. -/
def countOfJson? (v : Json.Value) : Option Nat := v.natural?.filter (· ≤ 0xffffffffffffffff)

/-- The preferences with the given values. -/
def ofFields? (lead? count? filter? : Option Json.Value) : Option Preferences := do
  let lead? ← (lead?.map lead?OfJson?).getD (some default.lead?)
  let count ← (count?.map countOfJson?).getD (some default.count)
  let filter ← (filter?.map Json.Value.text?).getD (some default.logFilter)
  pure ⟨lead?, count, filter⟩

/-- The value of a member, if there is one, unless the member is repeated. -/
def member? (members : List (Bytes × Json.Value)) (name : String) : Option (Option Json.Value) :=
  match members.filter (·.1 == Bytes.ofString name) with
  | [] => some none
  | [(_, v)] => some (some v)
  | _ => none

/-- The preferences in a document: an object, of which members with other names are ignored, or a
    list of values. -/
def ofJson? : Json.Value → Option Preferences
  | .object members => do
    let members ← members.mapM fun (name, v) => do pure (← name.text?, v)
    ofFields? (← member? members "default_prefix") (← member? members "default_count")
      (← member? members "log_filter")
  | .list items =>
    if items.length ≤ fields.length then ofFields? items[0]? items[1]? items[2]? else none
  | _ => none

theorem ofJson?_object_nil : ofJson? (.object []) = some default := rfl

theorem ofJson?_list_nil : ofJson? (.list []) = some default := rfl

end Preferences

/-! ## Files -/

/-- What stands at the path of a file. -/
inductive Source
  /-- Nothing. -/
  | absent
  /-- Something that may not be opened. -/
  | closed
  /-- Something without content that could be read, such as a folder. -/
  | unreadable
  | content (bytes : Bytes)

namespace Source

/-- The preferences at a path. A file need not exist, but one that does has to be a document of
    preferences. -/
def preferences (path : String) : Source → Except String Preferences
  | absent => .ok .default
  | closed => .error ("opening " ++ path)
  | unreadable => .error ("parsing " ++ path)
  | content bytes =>
    match (Json.parse? bytes).bind Preferences.ofJson? with
    | some p => .ok p
    | none => .error ("parsing " ++ path)

end Source

end CommandLine

end PassHash
