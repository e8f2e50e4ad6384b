import Mathlib.Data.List.TakeWhile
import PassHash.Scheme.Field

/-!
# Runs of Characters

Fields are read as the longest run of characters of one kind, or as everything ahead of the last
separator. Both ways of reading find a field again wherever it is followed by a character of
another kind, whatever comes after that.

## Main statements

- `Bytes.takeWhile_append_of_stops`: a run read back
- `Bytes.beforeLast_append`: a part ahead of the last separator read back
- `Field.salt?_append`, `Field.salt?_self`: a salt read back, ahead of a separator or at the end
-/

namespace PassHash

namespace Bytes

/-! ## Runs -/

/-- Whether a text does not go on with a character of a kind. -/
def Stops (p : UInt8 → Bool) (s : Bytes) : Prop := ∀ c ∈ s.head?, p c = false

theorem stops_nil (p : UInt8 → Bool) : Stops p [] := by
  simp [Stops]

theorem stops_cons {p : UInt8 → Bool} {c : UInt8} {s : Bytes} :
    Stops p (c :: s) ↔ p c = false := by
  simp [Stops]

theorem stops_dropWhile (p : UInt8 → Bool) (s : Bytes) : Stops p (s.dropWhile p) := by
  intro c hc
  have h := List.head?_dropWhile_not p s
  rw [Option.mem_def] at hc
  simpa [hc] using h

theorem takeWhile_append_of_stops {p : UInt8 → Bool} {run rest : Bytes}
    (hrun : ∀ c ∈ run, p c = true) (hrest : Stops p rest) :
    (run ++ rest).takeWhile p = run := by
  rw [List.takeWhile_append_of_pos hrun]
  cases rest with
  | nil => simp
  | cons c rest => simp [stops_cons.1 hrest]

theorem drop_length_takeWhile (p : UInt8 → Bool) (s : Bytes) :
    s.drop (s.takeWhile p).length = s.dropWhile p :=
  calc
    s.drop (s.takeWhile p).length
        = (s.takeWhile p ++ s.dropWhile p).drop (s.takeWhile p).length := by
      rw [List.takeWhile_append_dropWhile]
    _ = s.dropWhile p := List.drop_left

/-! ## Beginnings -/

theorem after?_getD_suffix (lead s : Bytes) : (after? lead s).getD s <:+ s := by
  cases h : after? lead s with
  | none => exact List.suffix_rfl
  | some rest => exact ⟨lead, (after?_eq_some_iff.1 h).symm⟩

theorem after?_eq_none_iff {lead s : Bytes} : after? lead s = none ↔ ¬lead <+: s := by
  rw [Option.eq_none_iff_forall_ne_some]
  constructor
  · rintro h ⟨rest, rfl⟩
    exact h rest (after?_append lead rest)
  · intro h rest hrest
    exact h ⟨rest, (after?_eq_some_iff.1 hrest).symm⟩

/-- A beginning without separator that a text does not have is not made by closing a part of the
    text with one. -/
theorem after?_append_eq_none {sep : UInt8} {lead s part : Bytes} (h : after? lead s = none)
    (hpart : part <+: s) (hsep : sep ∉ lead) (rest : Bytes) :
    after? lead (part ++ sep :: rest) = none := by
  rw [Option.eq_none_iff_forall_ne_some] at h ⊢
  intro t ht
  obtain ⟨tail, rfl⟩ := hpart
  -- either the beginning reaches beyond the part, or the part beyond the beginning
  rcases List.append_eq_append_iff.1 (after?_eq_some_iff.1 ht) with ⟨as, has, hrest⟩ | ⟨bs, hbs, -⟩
  · cases as with
    | nil =>
      -- the part is the beginning itself, which the text then has
      apply h tail
      rw [after?_eq_some_iff, has, List.append_nil]
    | cons c as =>
      -- the beginning goes past the part, so it takes the separator along
      obtain ⟨rfl, -⟩ := List.cons.inj hrest
      exact hsep (by simp [has])
  · apply h (bs ++ tail)
    rw [after?_eq_some_iff, hbs, List.append_assoc]

/-! ## Separators -/

theorem beforeLast?_append {sep : UInt8} (s : Bytes) {rest : Bytes} (h : sep ∉ rest) :
    beforeLast? sep (s ++ sep :: rest) = some s := by
  have hnone : beforeLast? sep rest = none := by
    induction rest with
    | nil => rfl
    | cons c rest ih =>
      rw [List.mem_cons, not_or] at h
      simp [beforeLast?, ih h.2, Ne.symm h.1]
  induction s with
  | nil => simp [beforeLast?, hnone]
  | cons c s ih => simp [beforeLast?, ih]

theorem beforeLast_append {sep : UInt8} (s : Bytes) {rest : Bytes} (h : sep ∉ rest) :
    beforeLast sep (s ++ sep :: rest) = s := by
  simp [beforeLast, beforeLast?_append s h]

/-- What is ahead of the last separator is all, or a separator follows it. -/
theorem beforeLast_eq_or {sep : UInt8} (s : Bytes) :
    (beforeLast sep s = s ∧ sep ∉ s) ∨
      ∃ rest, sep ∉ rest ∧ s = beforeLast sep s ++ sep :: rest := by
  -- the induction needs the optional form, which says whether there is a separator at all
  have hcases : (beforeLast? sep s = none ∧ sep ∉ s) ∨
      ∃ t rest, beforeLast? sep s = some t ∧ sep ∉ rest ∧ s = t ++ sep :: rest := by
    induction s with
    | nil => simp [beforeLast?]
    | cons c s ih =>
      rcases ih with ⟨hn, hs⟩ | ⟨t, rest, ht, hrest, rfl⟩
      · -- no separator behind the first character, so that one decides
        by_cases hc : c = sep
        · exact .inr ⟨[], s, by simp [beforeLast?, hn, hc], hs, by simp [hc]⟩
        · exact .inl ⟨by simp [beforeLast?, hn, hc], by simp [hs, Ne.symm hc]⟩
      · exact .inr ⟨c :: t, rest, by simp [beforeLast?, ht], hrest, rfl⟩
  rcases hcases with ⟨hn, hs⟩ | ⟨t, rest, ht, hrest, hs⟩
  · exact .inl ⟨by simp [beforeLast, hn], hs⟩
  · exact .inr ⟨rest, hrest, by rw [beforeLast, ht]; exact hs⟩

theorem beforeLast_eq_self {sep : UInt8} {s : Bytes} (h : sep ∉ s) : beforeLast sep s = s := by
  rcases beforeLast_eq_or s with ⟨heq, -⟩ | ⟨rest, -, heq⟩
  · exact heq
  · exact absurd (by rw [heq]; simp) h

/-- What is ahead of the last separator starts a text. -/
theorem beforeLast_prefix (sep : UInt8) (s : Bytes) : beforeLast sep s <+: s := by
  rcases beforeLast_eq_or s with ⟨heq, -⟩ | ⟨rest, -, heq⟩
  · exact ⟨[], (List.append_nil _).trans heq⟩
  · exact ⟨sep :: rest, heq.symm⟩

end Bytes

/-! ## Salts -/

namespace Field

open Bytes

variable {isSalt : UInt8 → Bool} {salt : Bytes}

theorem salt?_append (hsalt : ∀ c ∈ salt, isSalt c = true) (hd : isSalt dollar = false)
    (rest : Bytes) : salt? isSalt (salt ++ dollar :: rest) = some salt :=
  salt?_eq_some_iff.2
    ⟨takeWhile_append_of_stops hsalt (stops_cons.2 hd), .inr ⟨rest, rfl⟩⟩

theorem salt?_self (hsalt : ∀ c ∈ salt, isSalt c = true) : salt? isSalt salt = some salt := by
  have h := takeWhile_append_of_stops hsalt (stops_nil isSalt)
  rw [List.append_nil] at h
  exact salt?_eq_some_iff.2 ⟨h, .inl rfl⟩

theorem isSalt_of_salt? {s : Bytes} (h : salt? isSalt s = some salt) :
    ∀ c ∈ salt, isSalt c = true := by
  obtain ⟨rfl, -⟩ := salt?_eq_some_iff.1 h
  exact fun c hc => List.mem_takeWhile_imp hc

theorem prefix_of_salt? {s : Bytes} (h : salt? isSalt s = some salt) : salt <+: s := by
  obtain ⟨rfl, -⟩ := salt?_eq_some_iff.1 h
  exact List.takeWhile_prefix _

end Field

end PassHash
