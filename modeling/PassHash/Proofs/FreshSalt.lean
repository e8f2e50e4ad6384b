import PassHash.Proofs.FreshSetting

/-!
# Salts by Method

Every fresh setting but that of NT hash holds a part of the caller's random bytes as its salt, and
two settings with the same salt hold the same part. The salt is empty in one case only: the methods
with rounds accept three random bytes, but take three of them only when a fourth is left over.

## Contents

- `Method.salting`: part, characters and place of the salts of a method
- `FreshSetting.Made`: fresh settings from random bytes of the caller

## Main statements

- `Method.salting_describes`: fresh settings are salted as their method says
- `FreshSetting.salt_of_made`: what the salt of a fresh setting holds, when there is none, and what
  follows for settings from other random bytes
-/

namespace PassHash

namespace Method

variable {m : Method}

/-! ## Methods -/

/-- How the fresh settings of a method are salted; those of NT hash are not. -/
def salting : Method → Salting
  | yescrypt => YescryptHash.salting id
  | keyedYescrypt v => YescryptHash.salting v.saltBytes
  | bcrypt _ => Bcrypt.salting
  | argon2 _ => Argon2Hash.salting
  | scrypt => ScryptHash.salting
  | shaCrypt v => (ShaCrypt.fresh v).salting
  | sha1Crypt => Sha1Crypt.salting
  | sunMd5 => SunMd5.salting
  | md5Crypt => Md5Crypt.fresh.salting
  | ntHash => ⟨fun _ => [], id, fun _ => [], 0⟩
  | bsdiCrypt => BsdiCrypt.salting
  | descrypt => Descrypt.salting

theorem salting_describes (hm : m ≠ ntHash) {capacity : Nat} (hcapacity : 64 ≤ capacity) :
    m.salting.Describes (m.generate capacity) := by
  cases m with
  | yescrypt => exact YescryptHash.salting_describes capacity
  | keyedYescrypt v => exact v.salting_describes capacity
  | bcrypt v => exact Bcrypt.salting_describes v capacity
  | argon2 v => exact Argon2Hash.salting_describes v capacity
  | scrypt => exact ScryptHash.salting_describes capacity
  | shaCrypt v => exact ShaCrypt.salting_describes v hcapacity
  | sha1Crypt => exact Sha1Crypt.salting_describes capacity
  | sunMd5 => exact SunMd5.salting_describes capacity
  | md5Crypt => exact Md5Crypt.salting_describes hcapacity
  | ntHash => exact absurd rfl hm
  | bsdiCrypt => exact BsdiCrypt.salting_describes capacity
  | descrypt => exact Descrypt.salting_describes capacity

/-- The methods with rounds are salted alike, and have room for a group. -/
theorem salting_eq {scheme : RoundsSalt} (h : m.roundsSalt? = some scheme) :
    m.salting = scheme.salting ∧ 4 ≤ scheme.maxSalt := by
  cases m with
  | md5Crypt =>
    cases h
    exact ⟨rfl, by decide⟩
  | shaCrypt v =>
    cases h
    exact ⟨rfl, (by decide : 4 ≤ ShaCrypt.maxSalt)⟩
  | _ => cases h

/-- Only the methods with rounds ask for more random bytes for a salt than for a setting. -/
theorem least_salting (m : Method) :
    m.salting.least = if m.roundsSalt?.isSome then 4 else 0 := by
  cases m <;> rfl

theorem ne_ntHash (h : m.roundsSalt?.isSome = true) : m ≠ ntHash := by
  rintro rfl
  cases h

/-- The methods with rounds ask for three random bytes. -/
theorem three_le_of_generate (h : m.roundsSalt?.isSome = true) {capacity count : Nat}
    {random setting : Bytes} (hg : m.generate capacity count random = .ok setting) :
    3 ≤ random.length := by
  cases m with
  | md5Crypt =>
    simp only [generate, Md5Crypt.generate, Checks.unlessInvalid_bind_eq_ok_iff] at hg
    exact (RoundsSalt.generate_eq_ok_iff.1 hg.2).1
  | shaCrypt v => exact (RoundsSalt.generate_eq_ok_iff.1 hg).1
  | _ => cases h

end Method

namespace FreshSetting

variable {m : Method} {random random' setting setting' : Bytes}

/-! ## Settings -/

/-- The fresh settings of a method from random bytes of the caller, for any cost. -/
def Made (m : Method) (random setting : Bytes) : Prop :=
  ∃ source q, q.method? = some m ∧ q.random = some random ∧ generate source q = .ok setting

/-- Such a setting is one that the method makes. -/
theorem Made.exists_generate (h : Made m random setting) :
    ∃ count, m.generate maxSize count random = .ok setting := by
  obtain ⟨source, q, hq, hr, hg⟩ := h
  have harea : (List.replicate maxSize (0 : UInt8)).length = maxSize := List.length_replicate
  obtain ⟨-, ht⟩ := text_eq_ok_of_run_eq_ok (Nat.le_of_eq harea) hg
  rw [harea, text_of_random (by decide) hq hr] at ht
  exact ⟨_, ht⟩

theorem Made.field_eq (hm : m ≠ .ntHash) (h : Made m random setting) :
    m.salting.field setting = m.salting.write (m.salting.part random) := by
  obtain ⟨count, hg⟩ := h.exists_generate
  exact (Method.salting_describes hm (by decide)).field_eq hg

/-- There is no salt if a method with rounds is left with three random bytes, and in no other
    case. -/
theorem Made.field_eq_nil_iff (hm : m ≠ .ntHash) (h : Made m random setting) :
    m.salting.field setting = [] ↔ m.roundsSalt?.isSome = true ∧ random.length = 3 := by
  obtain ⟨count, hg⟩ := h.exists_generate
  rw [(Method.salting_describes hm (by decide)).field_eq_nil_iff hg, m.least_salting]
  split
  · next hrounds =>
    have hlen := Method.three_le_of_generate hrounds hg
    simp only [hrounds, true_and]
    omega
  · next hrounds => simp [hrounds]

theorem Made.part_eq (hm : m ≠ .ntHash) (h : Made m random setting)
    (h' : Made m random' setting') (hfield : m.salting.field setting' = m.salting.field setting) :
    m.salting.part random' = m.salting.part random := by
  obtain ⟨count, hg⟩ := h.exists_generate
  obtain ⟨count', hg'⟩ := h'.exists_generate
  exact (Method.salting_describes hm (by decide)).part_eq_of_field_eq hg' hg hfield

/-- With four random bytes and a method with rounds a setting ends with groups of characters, of
    which the first has the first three bytes as its number. -/
theorem Made.exists_group (h : Made m random setting) (hm : m.roundsSalt?.isSome = true)
    (hlen : 4 ≤ random.length) :
    ∃ a b c rest lead first more, random = a :: b :: c :: rest ∧
      setting = lead ++ (first ++ more) ∧ m.salting.field setting = first ++ more ∧
      first.length = 4 ∧ 4 ∣ more.length ∧
      Base64.number? first = some (a.toNat + 256 * b.toNat + 65536 * c.toNat) := by
  obtain ⟨scheme, hscheme⟩ := Option.isSome_iff_exists.1 hm
  obtain ⟨hsalting, hmax⟩ := Method.salting_eq hscheme
  have hfield := h.field_eq (Method.ne_ntHash hm)
  obtain ⟨a, b, c, rest, more, rfl, hwrite, hmore⟩ := RoundsSalt.write_part hmax hlen
  rw [hsalting, hwrite] at hfield
  obtain ⟨lead, hlead⟩ : Field.afterLast setting <:+ setting := List.rtakeWhile_suffix _ _
  replace hfield : Field.afterLast setting = _ := hfield
  refine ⟨a, b, c, rest, lead, Base64.group [c, b, a], more, rfl, ?_, ?_, ?_, hmore,
    Base64.number?_group a b c⟩
  · rw [← hfield, hlead]
  · rw [hsalting]
    exact hfield
  · simp [Base64.length_group, Base64.charsFor]

/-- With four random bytes and a method with rounds, no setting from other first bytes is the
    same. -/
theorem Made.ne (h : Made m random setting) (hm : m.roundsSalt?.isSome = true)
    (hlen : 4 ≤ random.length) (h' : Made m random' setting')
    (hne : random'.take 3 ≠ random.take 3) : setting' ≠ setting := by
  have hnt := Method.ne_ntHash hm
  obtain ⟨scheme, hscheme⟩ := Option.isSome_iff_exists.1 hm
  obtain ⟨hsalting, hmax⟩ := Method.salting_eq hscheme
  rintro rfl
  -- both settings have a salt, so it holds the first bytes of both callers
  have hlen' : 4 ≤ random'.length := by
    obtain ⟨count, hg'⟩ := h'.exists_generate
    have hthree := Method.three_le_of_generate hm hg'
    have hiff := (h'.field_eq_nil_iff hnt).symm.trans (h.field_eq_nil_iff hnt)
    simp only [hm, true_and] at hiff
    omega
  have hpart := congrArg (List.take 3) (h.part_eq hnt h' rfl)
  rw [hsalting, RoundsSalt.take_part hmax hlen, RoundsSalt.take_part hmax hlen'] at hpart
  exact hne hpart

/-- The salt of a fresh setting holds a part of the caller's random bytes, which is the same in any
    other setting with that salt. There is none if a method with rounds is left with three random
    bytes, and in no other case. With four the salt of these methods starts with a group for the
    first three, and settings from other first bytes differ. -/
theorem salt_of_made (hm : m ≠ .ntHash) (h : Made m random setting) :
    m.salting.field setting = m.salting.write (m.salting.part random) ∧
      (m.salting.field setting = [] ↔ m.roundsSalt?.isSome = true ∧ random.length = 3) ∧
      (∀ random' setting', Made m random' setting' →
        m.salting.field setting' = m.salting.field setting →
          m.salting.part random' = m.salting.part random) ∧
      (m.roundsSalt?.isSome = true → 4 ≤ random.length →
        (∃ a b c rest lead first more, random = a :: b :: c :: rest ∧
          setting = lead ++ (first ++ more) ∧ m.salting.field setting = first ++ more ∧
          first.length = 4 ∧ 4 ∣ more.length ∧
          Base64.number? first = some (a.toNat + 256 * b.toNat + 65536 * c.toNat)) ∧
        ∀ random' setting', Made m random' setting' → random'.take 3 ≠ random.take 3 →
          setting' ≠ setting) := by
  refine ⟨h.field_eq hm, h.field_eq_nil_iff hm, ?part, fun hrounds hlen => ⟨?group, ?differ⟩⟩
  case part => exact fun random' setting' h' hfield => h.part_eq hm h' hfield
  case group => exact h.exists_group hrounds hlen
  case differ => exact fun random' setting' h' hne => h.ne hrounds hlen h' hne

/-- Four random bytes are enough for the salt of a setting with SHA-256. -/
theorem salt_of_made_sha256 :
    Made (.shaCrypt .sha256) [1, 2, 3, 4] (Bytes.ascii "$5$/6k.") ∧
      Field.afterLast (Bytes.ascii "$5$/6k.") =
        (ShaCrypt.fresh .sha256).salting.write [1, 2, 3] ∧
      ∀ random' setting', Made (.shaCrypt .sha256) random' setting' →
        random'.take 3 ≠ [1, 2, 3] → setting' ≠ Bytes.ascii "$5$/6k." := by
  have hmade : Made (.shaCrypt .sha256) [1, 2, 3, 4] (Bytes.ascii "$5$/6k.") := by
    refine ⟨fun _ => none, ⟨some (Bytes.ascii "$5$"), 0, some [1, 2, 3, 4]⟩, ?_, rfl, ?_⟩
    · decide
    · decide +kernel
  obtain ⟨hfield, -, -, hrounds⟩ := salt_of_made (by decide) hmade
  exact ⟨hmade, hfield, (hrounds rfl (by decide)).2⟩

/-- Three random bytes are accepted, and the setting has no salt at all. -/
theorem salt_of_made_empty :
    generate (fun _ => none) ⟨some (Bytes.ascii "$5$"), 0, some [1, 2, 3]⟩ =
        .ok (Bytes.ascii "$5$") ∧
      generate (fun _ => none) ⟨some (Bytes.ascii "$5$"), 0, some [4, 5, 6]⟩ =
        .ok (Bytes.ascii "$5$") ∧
      Field.afterLast (Bytes.ascii "$5$") = [] := by
  refine ⟨?_, ?_, ?_⟩
  · decide +kernel
  · decide +kernel
  · decide

end FreshSetting

end PassHash
