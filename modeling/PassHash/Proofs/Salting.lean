import Mathlib.Data.List.DropRight
import PassHash.Scheme.Field

/-!
# Salts of Fresh Settings

A fresh setting holds a part of the random bytes as its salt. What part that is, how it is written
and where it stands differs from scheme to scheme; that the salt can be told apart for any two parts
does not.

## Contents

- `Salting`: part, characters and place of the salts of a scheme
- `Salting.Describes`: fresh settings are salted like this
- `Field.afterLast`: what follows the last separator

## Main statements

- `Salting.Describes.field_eq_nil_iff`: when a fresh setting has an empty salt
-/

namespace PassHash

/-! ## Schemes of salts -/

/-- How the fresh settings of a scheme are salted. -/
structure Salting where
  /-- The part of the random bytes that a salt holds. -/
  part : Bytes → Bytes
  /-- The characters of such a part. -/
  write : Bytes → Bytes
  /-- The field of a fresh setting that holds the salt. -/
  field : Bytes → Bytes
  /-- The number of random bytes from which on a fresh setting has a salt, 0 if all of them do. -/
  least : Nat

namespace Salting

/-- What it means for fresh settings to be salted as a scheme says. -/
structure Describes (s : Salting) (generate : Nat → Bytes → Except Failure Bytes) : Prop where
  field_eq : ∀ {count random setting}, generate count random = .ok setting →
    s.field setting = s.write (s.part random)
  part_eq_nil_iff : ∀ {count random setting}, generate count random = .ok setting →
    (s.part random = [] ↔ random.length < s.least)
  part_nil : s.part [] = []
  write_nil : s.write [] = []
  write_injective : ∀ {random random'}, s.write (s.part random) = s.write (s.part random') →
    s.part random = s.part random'

namespace Describes

variable {s : Salting} {generate : Nat → Bytes → Except Failure Bytes} {count : Nat}
  {random setting : Bytes}

/-- What is made in another way for some count is salted in the same way. -/
theorem mono {generate' : Nat → Bytes → Except Failure Bytes} (hs : s.Describes generate')
    (h : ∀ {count random setting}, generate count random = .ok setting →
      ∃ count', generate' count' random = .ok setting) : s.Describes generate where
  field_eq hg := (h hg).elim fun _ => hs.field_eq
  part_eq_nil_iff hg := (h hg).elim fun _ => hs.part_eq_nil_iff
  part_nil := hs.part_nil
  write_nil := hs.write_nil
  write_injective := hs.write_injective

/-- The salt of a fresh setting is empty exactly if there were too few random bytes for it. -/
theorem field_eq_nil_iff (hs : s.Describes generate) (hg : generate count random = .ok setting) :
    s.field setting = [] ↔ random.length < s.least := by
  rw [hs.field_eq hg, ← hs.part_eq_nil_iff hg]
  constructor
  · intro h
    have hnil : s.write (s.part random) = s.write (s.part []) := by
      rw [h, hs.part_nil, hs.write_nil]
    rw [hs.write_injective hnil, hs.part_nil]
  · intro h
    rw [h, hs.write_nil]

/-- Two fresh settings with the same salt were made from the same part of their random bytes. -/
theorem part_eq_of_field_eq (hs : s.Describes generate) {count' : Nat} {random' setting' : Bytes}
    (hg : generate count random = .ok setting) (hg' : generate count' random' = .ok setting')
    (h : s.field setting = s.field setting') : s.part random = s.part random' := by
  apply hs.write_injective
  rw [← hs.field_eq hg, ← hs.field_eq hg', h]

end Describes

end Salting

namespace Field

/-! ## Places -/

/-- What follows the last separator, all of a text when there is none. -/
def afterLast (s : Bytes) : Bytes := s.rtakeWhile (· != dollar)

theorem afterLast_append (lead : Bytes) {salt : Bytes} (h : dollar ∉ salt) :
    afterLast (lead ++ dollar :: salt) = salt := by
  have hsalt : ∀ c ∈ salt.reverse, (c != dollar) = true := by
    intro c hc
    rw [bne_iff_ne]
    rintro rfl
    exact h (List.mem_reverse.1 hc)
  rw [afterLast, List.rtakeWhile, List.reverse_append, List.reverse_cons, List.append_assoc,
    List.takeWhile_append_of_pos hsalt]
  simp

end Field

end PassHash
