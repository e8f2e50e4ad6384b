import PassHash.Proofs.Layout
import PassHash.Proofs.Scheme.RoundsSalt
import PassHash.Scheme.Md5Crypt

/-!
# Settings of MD5-crypt

A hash repeats the marker and the salt of its setting, cut to eight characters, and reads as a
setting with the same salt.

## Main statements

- `Md5Crypt.hash_eq_ok_iff`: when there is a hash, and which
- `Md5Crypt.hash_demands`: more room makes no difference, and too little is refused
- `Md5Crypt.layout`, `Md5Crypt.layout_describes`: the layout of hashes
- `Md5Crypt.usable_of_generate`: fresh settings are fit for use
- `Md5Crypt.salting_describes`: how fresh settings are salted
-/

namespace PassHash

namespace Md5Crypt

variable {room : Room} {phrase setting h salt : Bytes}

/-! ## Reading -/

/-- The text ahead of a digest. -/
def head (salt : Bytes) : Bytes := tag ++ salt ++ [Field.dollar]

theorem isEntryChar_of_salt? (hs : salt? setting = some salt) :
    (∀ c ∈ salt, Field.isEntryChar c = true) ∧ salt.length ≤ maxSalt := by
  obtain ⟨full, hfull, rfl⟩ := Option.map_eq_some_iff.1 hs
  refine ⟨fun c hc => Field.isSalt_of_salt? hfull c (List.mem_of_mem_take hc), ?_⟩
  rw [List.length_take]
  exact Nat.min_le_left ..

theorem subset_of_salt? (hs : salt? setting = some salt) : salt ⊆ setting := by
  obtain ⟨full, hfull, rfl⟩ := Option.map_eq_some_iff.1 hs
  have hbody := (Bytes.after?_getD_suffix tag setting).subset
  have hsalt := (List.take_prefix maxSalt full).trans (Field.prefix_of_salt? hfull)
  exact List.Subset.trans hsalt.subset hbody

/-- A salt is read back from the text of a setting, with a digest or without. -/
theorem salt?_head_append (hsalt : ∀ c ∈ salt, Field.isEntryChar c = true)
    (hlen : salt.length ≤ maxSalt) (rest : Bytes) : salt? (head salt ++ rest) = some salt := by
  have htext : head salt ++ rest = tag ++ (salt ++ Field.dollar :: rest) := by simp [head]
  rw [salt?, htext, Bytes.after?_append, Option.getD_some,
    Field.salt?_append hsalt Field.isEntryChar_dollar, Option.map_some, List.take_of_length_le hlen]

theorem tag_prefix_head (salt : Bytes) : tag <+: head salt := by
  rw [head, List.append_assoc]
  exact List.prefix_append ..

/-! ## Hashing -/

theorem hash_eq_ok_iff : hash room phrase setting = .ok h ↔
    outputSize ≤ room.output ∧ 16 ≤ room.scratch ∧ ∃ salt, salt? setting = some salt ∧
      h.length + 1 ≤ room.output ∧ head salt ++ Base64.scatter order (digest phrase salt) = h := by
  simp only [hash, Checks.need_bind_eq_ok_iff, Checks.orInvalid_bind_eq_ok_iff,
    Checks.fit_eq_ok_iff]
  rfl

theorem hash_demands (phrase setting : Bytes) :
    Room.Demands fun room => hash room phrase setting :=
  .bind (.output _) fun _ => .bind (.scratch _) fun _ => .bind (.const _) fun _ => .fit _

theorem length_digest_text (digest : Bytes) : (Base64.scatter order digest).length = 22 :=
  Base64.length_scatter order digest

/-- How many characters a digest has. -/
def digestLength : Nat := 22

/-- The salt, and 22 characters of digest. -/
def layout : Layout where
  Reading := Bytes
  read? := salt?
  head := head
  isLength n := n == digestLength
  isChar := Field.isCryptChar
  sizing _ _ _ := true
  isLength_zero := rfl
  isForbidden_of_isChar := Field.isForbidden_of_isCryptChar
  reread hs _ _ := by
    obtain ⟨hsalt, hlen⟩ := isEntryChar_of_salt? hs
    exact salt?_head_append hsalt hlen _
  hasForbidden_head hs hf := by
    have hsalt := Setting.hasForbidden_of_subset (subset_of_salt? hs) hf
    have htag : Setting.hasForbidden tag = false := by decide
    simp [head, hsalt, htag]

theorem layout_describes : layout.Describes hash where
  shape hh := by
    obtain ⟨-, -, salt, hsalt, hfit, rfl⟩ := hash_eq_ok_iff.1 hh
    exact ⟨hfit, salt, _, hsalt, ⟨beq_iff_eq.2 (length_digest_text _),
      fun c hc => Base64.has_of_mem_scatter hc⟩, rfl⟩
  congr hr hr' _ := by
    replace hr : salt? _ = _ := hr
    replace hr' : salt? _ = _ := hr'
    simp only [hash, hr, hr']

/-! ## Fresh settings -/

theorem generate_fitting (capacity count : Nat) (random : Bytes) :
    Room.Fitting capacity (generate capacity count random) :=
  .bind fun _ => fresh.generate_fitting capacity rounds random

/-- With more room there is a fresh setting as well, which adds to the salt. -/
theorem generate_groups {capacity capacity' count : Nat} {random : Bytes}
    (hle : capacity ≤ capacity') (hg : generate capacity count random = .ok setting) :
    ∃ longer, generate capacity' count random = .ok longer ∧
      fresh.AddsGroups count setting longer := by
  simp only [generate, Checks.unlessInvalid_bind_eq_ok_iff, beq_iff_eq] at hg ⊢
  obtain ⟨rfl, hg⟩ := hg
  obtain ⟨longer, hlonger, hadds⟩ := RoundsSalt.generate_groups hle hg
  -- no rounds are stated either way
  have hlead : fresh.lead rounds = fresh.lead 0 := by decide
  rw [RoundsSalt.AddsGroups, hlead] at hadds
  exact ⟨longer, ⟨rfl, hlonger⟩, hadds⟩

theorem usable_of_generate {capacity count : Nat} {random : Bytes}
    (hg : generate capacity count random = .ok setting) :
    layout.Usable hash ⟨384, Hashing.scratchSize⟩ setting ∧ tag <+: setting := by
  simp only [generate, Checks.unlessInvalid_bind_eq_ok_iff] at hg
  obtain ⟨-, hg⟩ := hg
  obtain ⟨salt, rfl, hsalt, hlen⟩ := RoundsSalt.generate_eq_ok (by decide) hg
  -- the rounds are fixed, so no field states them
  have hfield : fresh.roundsField (fresh.rounds rounds) = [] := by decide
  have htag : fresh.tag = tag := rfl
  replace hlen : salt.length ≤ maxSalt := hlen
  rw [hfield, htag, List.append_nil]
  -- a fresh setting ends with its salt, without a separator
  have hread : salt? (tag ++ salt) = some salt := by
    rw [salt?, Bytes.after?_append, Option.getD_some,
      Field.salt?_self fun c hc => Field.isEntryChar_of_isCryptChar (hsalt c hc), Option.map_some,
      List.take_of_length_le hlen]
  refine ⟨?_, List.prefix_append ..⟩
  constructor
  case reads => exact ⟨salt, hread, List.prefix_append ..⟩
  case hasForbidden =>
    have htag : Setting.hasForbidden tag = false := by decide
    simp [Setting.hasForbidden_of_isCryptChar hsalt, htag]
  case hashes =>
    intro phrase _
    refine ⟨_, hash_eq_ok_iff.2 ⟨by decide, by decide, salt, hread, ?_, rfl⟩⟩
    replace hlen : salt.length ≤ 8 := hlen
    have htag : tag.length = 3 := by decide
    simp only [head, List.length_append, List.length_singleton, length_digest_text, htag]
    omega

/-! ## Salting -/

/-- No field states the rounds, since they are fixed. -/
theorem lead_eq_tag (count : Nat) : fresh.lead count = tag := by
  have hrounds : fresh.rounds count = rounds :=
    Nat.le_antisymm (RoundsSalt.rounds_le (Nat.le_refl rounds) count) (fresh.minRounds_le count)
  rw [RoundsSalt.lead, hrounds]
  decide

theorem salting_describes {capacity : Nat} (hcapacity : 64 ≤ capacity) :
    fresh.salting.Describes (generate capacity) := by
  have hdescribes : fresh.salting.Describes (fresh.generate capacity) := by
    refine RoundsSalt.salting_describes (by decide) (by decide) (by decide) fun count => ?_
    have htag : tag.length + fresh.maxSalt + 5 < 64 := by decide
    rw [lead_eq_tag]
    omega
  refine hdescribes.mono fun hg => ⟨rounds, ?_⟩
  simp only [generate, Checks.unlessInvalid_bind_eq_ok_iff] at hg
  exact hg.2

end Md5Crypt

end PassHash
