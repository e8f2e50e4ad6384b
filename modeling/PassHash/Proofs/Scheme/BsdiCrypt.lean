import PassHash.Proofs.Base64.LowFirst
import PassHash.Proofs.Salting
import PassHash.Proofs.Scheme.Descrypt
import PassHash.Scheme.BsdiCrypt

/-!
# Settings of Extended DES

Count and salt take four characters each, with no second spelling, so the nine characters that a
hash repeats of its setting are those that the parts are written with.

## Main statements

- `BsdiCrypt.hash_eq_ok_iff`: when there is a hash, and which
- `BsdiCrypt.hash_demands`, `BsdiCrypt.generate_demands`: more room makes no difference, and too
  little is refused
- `BsdiCrypt.layout`, `BsdiCrypt.layout_describes`: the layout of hashes
- `BsdiCrypt.generate_eq_ok`, `BsdiCrypt.parse?_generate`: what a fresh setting consists of, and
  what is read from it
- `BsdiCrypt.usable_of_generate`: fresh settings are fit for use
- `BsdiCrypt.salting_describes`: how fresh settings are salted
-/

namespace PassHash

namespace BsdiCrypt

open Base64

variable {room : Room} {phrase setting h : Bytes} {s : Setting}

/-! ## Reading -/

/-- The text of a setting. -/
def Setting.text (s : Setting) : Bytes := tag ++ (digits 4 s.count ++ digits 4 s.salt)

/-- What a setting that is read fulfils. -/
structure Setting.Fits (s : Setting) : Prop where
  count : s.count < 64 ^ 4
  salt : s.salt < 64 ^ 4

theorem Setting.length_text (s : Setting) : s.text.length = settingLength := by
  have htag : tag.length = 1 := by decide
  simp [Setting.text, htag, settingLength]

/-- A setting starts with the text of what is read from it. -/
theorem parse?_eq_some (hs : parse? setting = some s) : s.Fits ∧ s.text <+: setting := by
  unfold parse? at hs
  split at hs
  · next a b c d p q r t rest hafter =>
    simp only [Option.bind_eq_bind, Option.bind_eq_some_iff] at hs
    obtain ⟨count, hcount, salt, hsalt, hs⟩ := hs
    cases hs
    refine ⟨⟨number?_lt hcount, number?_lt hsalt⟩, rest, ?_⟩
    -- four characters of the alphabet are the only spelling of their number
    have hc : digits 4 count = [a, b, c, d] := digits_of_number? hcount
    have hp : digits 4 salt = [p, q, r, t] := digits_of_number? hsalt
    rw [Bytes.after?_eq_some_iff.1 hafter, Setting.text, hc, hp, List.append_assoc]
    rfl
  · cases hs

/-- A setting is read back from its text, ahead of any digest. -/
theorem parse?_text_append (hs : s.Fits) (rest : Bytes) : parse? (s.text ++ rest) = some s := by
  have hcount := number?_digits_of_lt hs.count
  have hsalt := number?_digits_of_lt hs.salt
  rw [parse?, Setting.text, List.append_assoc, Bytes.after?_append]
  show (number? (digits 4 s.count)).bind (fun count => (number? (digits 4 s.salt)).bind _) = _
  rw [hcount, Option.bind_some, hsalt]
  rfl

theorem parse?_text (hs : s.Fits) : parse? s.text = some s := by
  have hread := parse?_text_append hs []
  rwa [List.append_nil] at hread

/-! ## Hashing -/

theorem hash_eq_ok_iff : hash room phrase setting = .ok h ↔
    settingLength + 11 + 1 ≤ room.output ∧ Descrypt.scratchSize ≤ room.scratch ∧
      ∃ s, parse? setting = some s ∧ h.length + 1 ≤ room.output ∧
        s.text ++ digest s phrase = h := by
  simp only [hash, Checks.need_bind_eq_ok_iff, Checks.orInvalid_bind_eq_ok_iff,
    Checks.fit_eq_ok_iff]
  -- what the hash repeats is the text of the setting that is read
  have htake : ∀ {s}, parse? setting = some s → setting.take settingLength = s.text := by
    intro s hs
    rw [← s.length_text]
    exact (List.prefix_iff_eq_take.1 (parse?_eq_some hs).2).symm
  constructor
  · rintro ⟨ho, hs, s, hread, hfit, hmade⟩
    rw [htake hread] at hmade
    exact ⟨ho, hs, s, hread, hfit, hmade⟩
  · rintro ⟨ho, hs, s, hread, hfit, hmade⟩
    rw [← htake hread] at hmade
    exact ⟨ho, hs, s, hread, hfit, hmade⟩

theorem hash_demands (phrase setting : Bytes) :
    Room.Demands fun room => hash room phrase setting :=
  .bind (.output _) fun _ => .bind (.scratch _) fun _ => .bind (.const _) fun _ => .fit _

theorem hasForbidden_text (s : Setting) : Setting.hasForbidden s.text = false := by
  have htag : Setting.hasForbidden tag = false := by decide
  have hdigits : ∀ n, Setting.hasForbidden (digits 4 n) = false := fun n =>
    Setting.hasForbidden_of_isCryptChar fun _ hc => has_of_mem_digits hc
  simp [Setting.text, htag, hdigits]

/-- How many characters a digest has. -/
def digestLength : Nat := 11

/-- Count and salt, and eleven characters of digest. -/
def layout : Layout where
  Reading := Setting
  read? := parse?
  head := Setting.text
  isLength n := n == digestLength
  isChar := Field.isCryptChar
  sizing _ _ _ := true
  isLength_zero := rfl
  isForbidden_of_isChar := Field.isForbidden_of_isCryptChar
  reread hs _ _ := parse?_text_append (parse?_eq_some hs).1 _
  hasForbidden_head _ _ := hasForbidden_text _

theorem layout_describes : layout.Describes hash where
  shape hh := by
    obtain ⟨-, -, s, hs, hfit, rfl⟩ := hash_eq_ok_iff.1 hh
    exact ⟨hfit, s, _, hs, ⟨beq_iff_eq.2 (Descrypt.length_encoded _ _),
      fun c hc => Descrypt.isCryptChar_of_mem_encoded hc⟩, rfl⟩
  congr {room phrase setting setting'} s hr hr' _ := by
    replace hr : parse? setting = some s := hr
    replace hr' : parse? setting' = some s := hr'
    have htake : setting.take settingLength = setting'.take settingLength := by
      rw [← s.length_text, ← List.prefix_iff_eq_take.1 (parse?_eq_some hr).2,
        ← List.prefix_iff_eq_take.1 (parse?_eq_some hr').2]
    simp only [hash, hr, hr', htake]

/-! ## Fresh settings -/

theorem freshCount_lt (count : Nat) : freshCount count < 64 ^ 4 := by
  -- the count is at most 24 bits wide, and setting the lowest of them keeps it so
  have hbound : (if count = 0 then 725 else min count 0xffffff) < 2 ^ 24 := by
    split
    · decide
    · omega
  exact Nat.or_lt_two_pow hbound (by decide)

theorem generate_demands (count : Nat) (random : Bytes) :
    Room.Demands fun room => generate room.output count random :=
  .bind (.output _) fun _ =>
    match random with
    | _ :: _ :: _ :: _ => .fit _
    | [_, _] | [_] | [] => .const _

theorem generate_fitting (capacity count : Nat) (random : Bytes) :
    Room.Fitting capacity (generate capacity count random) :=
  .bind fun _ =>
    match random with
    | _ :: _ :: _ :: _ => .fit _
    | [_, _] | [_] | [] => .error _

/-- A fresh setting is the text of its count and the number of its three bytes of salt. -/
theorem generate_eq_ok {capacity count : Nat} {random : Bytes}
    (hg : generate capacity count random = .ok setting) : ∃ a b c rest, random = a :: b :: c :: rest ∧
      setting = Setting.text ⟨freshCount count, bigEndian [c, b, a]⟩ ∧
      Setting.Fits ⟨freshCount count, bigEndian [c, b, a]⟩ := by
  simp only [generate, Checks.need_bind_eq_ok_iff] at hg
  obtain ⟨-, hg⟩ := hg
  match random, hg with
  | a :: b :: c :: rest, hg =>
    obtain ⟨-, rfl⟩ := Room.fit_eq_ok_iff.1 hg
    -- three bytes are four characters, the first of them the lowest
    have hsalt : bigEndian [c, b, a] < 64 ^ 4 :=
      Nat.lt_of_lt_of_le (bigEndian_lt [c, b, a]) (by simp)
    have hgroup : group [c, b, a] = digits 4 (bigEndian [c, b, a]) := by
      simp [group, charsFor]
    refine ⟨a, b, c, rest, rfl, ?_, freshCount_lt count, hsalt⟩
    rw [hgroup, Setting.text, List.append_assoc]

/-- Count and salt are read back from a fresh setting. -/
theorem parse?_generate {capacity count : Nat} {random : Bytes}
    (hg : generate capacity count random = .ok setting) : ∃ a b c rest, random = a :: b :: c :: rest ∧
      parse? setting = some ⟨freshCount count, bigEndian [c, b, a]⟩ := by
  obtain ⟨a, b, c, rest, hrandom, rfl, hfits⟩ := generate_eq_ok hg
  exact ⟨a, b, c, rest, hrandom, parse?_text hfits⟩

theorem usable_text (hs : s.Fits) : layout.Usable hash ⟨384, Hashing.scratchSize⟩ s.text where
  reads := ⟨s, parse?_text hs, List.prefix_rfl⟩
  hasForbidden := hasForbidden_text s
  hashes _ := by
    refine ⟨_, hash_eq_ok_iff.2 ⟨by decide, by decide, s, parse?_text hs, ?_, rfl⟩⟩
    rw [List.length_append, Setting.length_text, digest, Descrypt.length_encoded]
    decide

theorem usable_of_generate {capacity count : Nat} {random : Bytes}
    (hg : generate capacity count random = .ok setting) :
    layout.Usable hash ⟨384, Hashing.scratchSize⟩ setting ∧ tag <+: setting := by
  obtain ⟨a, b, c, rest, -, rfl, hfits⟩ := generate_eq_ok hg
  exact ⟨usable_text hfits, List.prefix_append ..⟩

/-! ## Salting -/

/-- A salt holds three random bytes and follows the count. -/
def salting : Salting where
  part random := random.take 3
  write := encodeLow
  field := List.drop 5
  least := 0

theorem salting_describes (capacity : Nat) : salting.Describes (generate capacity) where
  field_eq {count random setting} hg := by
    simp only [generate, Checks.need_bind_eq_ok_iff] at hg
    obtain ⟨-, hg⟩ := hg
    match random, hg with
    | a :: b :: c :: _, hg =>
      obtain ⟨-, rfl⟩ := Room.fit_eq_ok_iff.1 hg
      have hlead : (tag ++ digits 4 (freshCount count)).length = 5 := by
        rw [List.length_append, length_digits]
        rfl
      show List.drop 5 _ = encodeLow [a, b, c]
      rw [← hlead, List.drop_left]
      simp [encodeLow]
  part_eq_nil_iff {count random setting} hg := by
    simp only [generate, Checks.need_bind_eq_ok_iff] at hg
    obtain ⟨-, hg⟩ := hg
    match random, hg with
    | _ :: _ :: _ :: _, _ => exact iff_of_false (List.cons_ne_nil _ _) (Nat.not_lt_zero _)
  part_nil := rfl
  write_nil := rfl
  write_injective h := encodeLow_injective h

end BsdiCrypt

end PassHash
