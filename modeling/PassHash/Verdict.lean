import PassHash.Hashing

/-!
# Verdicts on Settings

A setting, or a stored hash, is judged without hashing anything: whether its method is known, and
whether new hashes should be made with it.

## Main statements

- `Verdict.ofSetting_eq_invalid_of_forbidden`: a forbidden character settles the matter
-/

namespace PassHash

/-- What is to be said about a setting. -/
inductive Verdict
  | ok
  | invalid
  | methodDisabled
  | methodLegacy
  | tooCheap
  deriving DecidableEq, Repr

namespace Verdict

/-- The number of a verdict. -/
def code : Verdict → Nat
  | ok => 0
  | invalid => 1
  | methodDisabled => 2
  | methodLegacy => 3
  | tooCheap => 4

/-- The name of a verdict. -/
def name : Verdict → String
  | ok => "ok"
  | invalid => "invalid"
  | methodDisabled => "method_disabled"
  | methodLegacy => "method_legacy"
  | tooCheap => "too_cheap"

/-- The verdict on a setting, which ends at its first NUL. -/
def ofSetting (setting : Bytes) : Verdict :=
  let setting := setting.beforeNul
  if setting = [] ∨ Setting.hasForbidden setting then invalid
  else
    match Method.ofSetting? setting with
    | some m => if m.isStrong then ok else methodLegacy
    | none => invalid

theorem ofSetting_eq_invalid_of_forbidden {setting : Bytes}
    (h : Setting.hasForbidden setting.beforeNul = true) : ofSetting setting = invalid := by
  simp [ofSetting, h]

end Verdict

end PassHash
