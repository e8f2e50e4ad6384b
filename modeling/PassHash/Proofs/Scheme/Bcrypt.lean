import PassHash.Proofs.Base64.HighFirst
import PassHash.Proofs.Checks
import PassHash.Proofs.Layout
import PassHash.Proofs.Salting
import PassHash.Scheme.Bcrypt

/-!
# Settings of Bcrypt

A hash repeats the 29 characters of its setting with one change: the last character of the salt
carries four bits that do not count, and they are cleared. So a hash starts with the one spelling
of variant, cost and salt.

## Main statements

- `Bcrypt.take_append_of_parse?`: the characters repeated in a hash are the spelling of its setting
- `Bcrypt.parse?_text_append`: a setting is read back from that spelling
- `Bcrypt.hash_eq_ok_iff`, `Bcrypt.hash_of_parse?`: when there is a hash, and which
- `Bcrypt.hash_demands`, `Bcrypt.generate_demands`: more room makes no difference, and too little is
  refused
- `Bcrypt.layout`, `Bcrypt.layout_describes`: the layout of hashes
- `Bcrypt.generate_eq_ok`, `Bcrypt.parse?_generate`: what a fresh setting consists of, and what is
  read from it
- `Bcrypt.usable_of_generate`: fresh settings are fit for use
- `Bcrypt.salting_describes`: how fresh settings are salted
-/

namespace PassHash

namespace Bcrypt

open Base64

variable {v : Variant} {room : Room} {phrase setting h : Bytes} {s : Setting}

/-! ## Variants and costs -/

theorem Variant.ofLetter?_letter (v : Variant) : ofLetter? v.letter = some v := by
  cases v <;> decide

theorem Variant.letter_of_ofLetter? {c : UInt8} (hv : ofLetter? c = some v) : v.letter = c := by
  have hfound := List.find?_some (p := fun w : Variant => w.letter == c) hv
  exact beq_iff_eq.1 hfound

theorem Variant.hasForbidden_tag (v : Variant) : Setting.hasForbidden v.tag = false := by
  cases v <;> decide

theorem twoDigits_eq {n : Nat} (hn : n < 100) :
    twoDigits n = [Bytes.digit (n / 10), Bytes.digit (n % 10)] := by
  rw [twoDigits, Bytes.decimal_of_lt (by omega), Bytes.decimal_of_lt (Nat.mod_lt _ (by decide))]
  rfl

theorem decimalValue_pair {a b : Nat} (ha : a < 10) (hb : b < 10) :
    Bytes.decimalValue [Bytes.digit a, Bytes.digit b] = 10 * a + b := by
  have hpair : [Bytes.digit a, Bytes.digit b] = ([] ++ [Bytes.digit a]) ++ [Bytes.digit b] := rfl
  rw [hpair, Bytes.decimalValue_append_singleton, Bytes.decimalValue_append_singleton,
    Bytes.toNat_digit_sub ha, Bytes.toNat_digit_sub hb]
  simp [Bytes.decimalValue]

theorem cost?_twoDigits_append {n : Nat} (hmin : minCost ≤ n) (hmax : n ≤ maxCost) (rest : Bytes) :
    cost? (twoDigits n ++ Field.dollar :: rest) = some (n, rest) := by
  have hlt : n < 100 := Nat.lt_of_le_of_lt hmax (by decide)
  have hvalue : Bytes.decimalValue [Bytes.digit (n / 10), Bytes.digit (n % 10)] = n := by
    rw [decimalValue_pair (by omega) (by omega)]
    omega
  rw [twoDigits_eq hlt, List.cons_append, List.cons_append, List.nil_append, cost?]
  simp only [hvalue]
  rw [if_pos ⟨Bytes.isDigit_digit (by omega), Bytes.isDigit_digit (by omega), trivial, hmin, hmax⟩]

/-- A cost that is read was written in two digits. -/
theorem cost?_eq_some {n : Nat} {t rest : Bytes} (hc : cost? t = some (n, rest)) :
    minCost ≤ n ∧ n ≤ maxCost ∧ t = twoDigits n ++ Field.dollar :: rest := by
  match t, hc with
  | tens :: ones :: c :: t, hc =>
    simp only [cost?] at hc
    split at hc
    · next hall =>
      obtain ⟨htens, hones, rfl, hmin, hmax⟩ := hall
      simp only [Option.some.injEq, Prod.mk.injEq] at hc
      obtain ⟨rfl, rfl⟩ := hc
      refine ⟨hmin, hmax, ?_⟩
      -- a number below 100 has one spelling in two digits
      obtain ⟨a, ha, rfl⟩ := Bytes.exists_digit_of_isDigit htens
      obtain ⟨b, hb, rfl⟩ := Bytes.exists_digit_of_isDigit hones
      have hdiv : (10 * a + b) / 10 = a := by omega
      have hmod : (10 * a + b) % 10 = b := by omega
      rw [decimalValue_pair ha hb, twoDigits_eq (by omega), hdiv, hmod]
      rfl
    · cases hc

/-! ## Reading -/

/-- The one spelling of a setting. -/
def Setting.text (s : Setting) : Bytes :=
  s.variant.tag ++ (twoDigits s.cost ++ Field.dollar :: encodeHigh .bcrypt s.salt)

/-- What a setting that is read fulfils. -/
structure Setting.Fits (s : Setting) : Prop where
  minCost_le : minCost ≤ s.cost
  le_maxCost : s.cost ≤ maxCost
  length_salt : s.salt.length = 16

/-- The parts that a setting is read from. -/
theorem parse?_eq_some (hs : parse? setting = some s) : ∃ rest,
    setting = s.variant.tag ++ (twoDigits s.cost ++ Field.dollar :: rest) ∧ s.Fits ∧
      decodeExactly? .bcrypt 16 (rest.take saltLength) = some s.salt := by
  simp only [parse?, Option.bind_eq_bind, Option.bind_eq_some_iff] at hs
  obtain ⟨body, hbody, hs⟩ := hs
  cases body with
  | nil => cases hs
  | cons letter rest =>
    simp only [Option.bind_eq_some_iff] at hs
    obtain ⟨v, hv, after, hafter, ⟨cost, rest'⟩, hcost, salt, hsalt, hs⟩ := hs
    cases hs
    obtain ⟨hmin, hmax, rfl⟩ := cost?_eq_some hcost
    refine ⟨rest', ?_, ⟨hmin, hmax, length_of_decodeExactly? hsalt⟩, hsalt⟩
    rw [Bytes.after?_eq_some_iff.1 hbody, Bytes.after?_eq_some_iff.1 hafter, Variant.tag,
      Variant.letter_of_ofLetter? hv]
    simp

theorem length_twoDigits {n : Nat} (hn : n < 100) : (twoDigits n).length = 2 := by
  rw [twoDigits_eq hn]
  rfl

theorem Variant.length_tag (v : Variant) : v.tag.length = 4 := by
  cases v <;> decide

/-- The characters ahead of the salt. -/
def Setting.lead (s : Setting) : Bytes := s.variant.tag ++ (twoDigits s.cost ++ [Field.dollar])

theorem Setting.lead_append (s : Setting) (rest : Bytes) :
    s.lead ++ rest = s.variant.tag ++ (twoDigits s.cost ++ Field.dollar :: rest) := by
  simp [lead]

theorem length_lead (hs : s.Fits) : s.lead.length = 7 := by
  have hcost : s.cost < 100 := Nat.lt_of_le_of_lt hs.le_maxCost (by decide)
  simp [Setting.lead, s.variant.length_tag, length_twoDigits hcost]

theorem length_salt_text (hs : s.Fits) : (encodeHigh .bcrypt s.salt).length = saltLength := by
  rw [length_encodeHigh, hs.length_salt]
  rfl

theorem length_text (hs : s.Fits) : s.text.length = settingLength := by
  rw [Setting.text, ← Setting.lead_append, List.length_append, length_lead hs, length_salt_text hs]
  rfl

/-- The spelling of a setting starts with its marker. -/
theorem tag_prefix_text (htag : v.tag <+: setting) (hs : parse? setting = some s) :
    v.tag <+: s.text := by
  obtain ⟨rest, hrest, -, -⟩ := parse?_eq_some hs
  have hread : s.variant.tag <+: setting := by
    rw [hrest]
    exact List.prefix_append ..
  -- markers of the same length at the start of one text are the same
  have hlen : v.tag.length = s.variant.tag.length := by rw [v.length_tag, s.variant.length_tag]
  rw [(List.prefix_of_prefix_length_le htag hread (Nat.le_of_eq hlen)).eq_of_length hlen]
  exact List.prefix_append ..

/-- The characters that a hash repeats of its setting, the last one in canonical form, spell the
    parts of the setting. -/
theorem take_append_of_parse? (hs : parse? setting = some s) :
    ∃ last, setting[settingLength - 1]?.bind (canonicalTail? .bcrypt) = some last ∧
      setting.take (settingLength - 1) ++ [last] = s.text := by
  obtain ⟨rest, rfl, hfits, hsalt⟩ := parse?_eq_some hs
  have hlong := le_length_of_decodeExactly? hsalt
  rw [List.length_take] at hlong
  have hlen : (rest.take saltLength).length = 4 * 5 + 2 := by
    rw [List.length_take, saltLength]
    omega
  obtain ⟨c, last, hc, hlast, hcode⟩ := encodeHigh_take_of_decodeExactly? hlen hsalt
  -- seven characters of the setting stand ahead of the salt
  have hlead := length_lead hfits
  rw [List.getElem?_take_of_lt (by decide)] at hc
  rw [List.take_take] at hcode
  rw [← Setting.lead_append]
  refine ⟨last, ?_, ?_⟩
  · rw [List.getElem?_append_right (by rw [hlead]; decide), hlead]
    exact (congrArg (·.bind (canonicalTail? .bcrypt)) hc).trans hlast
  · rw [List.take_append, List.take_of_length_le (by rw [hlead]; decide), hlead, Setting.text,
      hcode, ← Setting.lead_append, List.append_assoc]
    rfl

/-- A setting is read back from its text, ahead of any digest. -/
theorem parse?_text_append (hs : s.Fits) (rest : Bytes) : parse? (s.text ++ rest) = some s := by
  have htext : s.text ++ rest = Bytes.ascii "$2" ++ s.variant.letter :: ([Field.dollar] ++
      (twoDigits s.cost ++ Field.dollar :: (encodeHigh .bcrypt s.salt ++ rest))) := by
    simp [Setting.text, Variant.tag]
  -- the salt is cut off by its length, so the digest may start with any character
  have hlen := length_salt_text hs
  have hsalt : decodeExactly? .bcrypt 16 ((encodeHigh .bcrypt s.salt ++ rest).take saltLength) =
      some s.salt := by
    have hdecode := decodeExactly?_encodeHigh .bcrypt s.salt
    rwa [← hlen, List.take_left, ← hs.length_salt]
  rw [parse?, htext, Bytes.after?_append]
  simp only [Option.bind_eq_bind, Option.bind_some, Variant.ofLetter?_letter, Bytes.after?_append,
    cost?_twoDigits_append hs.minCost_le hs.le_maxCost, hsalt]
  rfl

theorem parse?_text (hs : s.Fits) : parse? s.text = some s := by
  have hread := parse?_text_append hs []
  rwa [List.append_nil] at hread

/-! ## Hashing -/

theorem hash_eq_ok_iff : hash room phrase setting = .ok h ↔
    hashLength + 1 ≤ room.output ∧ 144 ≤ room.scratch ∧ ∃ s, parse? setting = some s ∧
      h.length + 1 ≤ room.output ∧
      s.text ++ encodeHigh .bcrypt ((digest s phrase).take 23) = h := by
  simp only [hash, Checks.need_bind_eq_ok_iff, Checks.orInvalid_bind_eq_ok_iff,
    Checks.fit_eq_ok_iff]
  constructor
  · rintro ⟨ho, hs, s, hread, last, hlast, hfit, hmade⟩
    obtain ⟨last', hlast', htext⟩ := take_append_of_parse? hread
    rw [hlast', Option.some.injEq] at hlast
    subst hlast
    rw [htext] at hmade
    exact ⟨ho, hs, s, hread, hfit, hmade⟩
  · rintro ⟨ho, hs, s, hread, hfit, hmade⟩
    obtain ⟨last, hlast, htext⟩ := take_append_of_parse? hread
    rw [← htext] at hmade
    exact ⟨ho, hs, s, hread, last, hlast, hfit, hmade⟩

theorem hash_demands (phrase setting : Bytes) :
    Room.Demands fun room => hash room phrase setting :=
  .bind (.output _) fun _ => .bind (.scratch _) fun _ =>
    .bind (.const _) fun _ => .bind (.const _) fun _ => .fit _

theorem hasForbidden_text (s : Setting) : Setting.hasForbidden s.text = false := by
  have hcost : Setting.hasForbidden (twoDigits s.cost) = false := by
    rw [twoDigits, Setting.hasForbidden_append, Setting.hasForbidden_decimal,
      Setting.hasForbidden_decimal, Bool.or_false]
  have hsalt : Setting.hasForbidden (encodeHigh .bcrypt s.salt) = false :=
    Setting.hasForbidden_of_isCryptChar fun c hc =>
      Field.isCryptChar_of_has_bcrypt (has_of_mem_encodeHigh hc)
  simp [Setting.text, s.variant.hasForbidden_tag, hcost, hsalt]

theorem length_digest (s : Setting) (phrase : Bytes) : (digest s phrase).length = 24 := rfl

theorem length_digest_text (s : Setting) (phrase : Bytes) :
    (encodeHigh .bcrypt ((digest s phrase).take 23)).length = 31 := by
  rw [length_encodeHigh, List.length_take, length_digest]
  rfl

/-- A setting that is read has a hash where there is room. -/
theorem hash_of_parse? (hout : hashLength + 1 ≤ room.output) (hwork : 144 ≤ room.scratch)
    (hs : parse? setting = some s) (phrase : Bytes) : hash room phrase setting =
      .ok (s.text ++ encodeHigh .bcrypt ((digest s phrase).take 23)) := by
  obtain ⟨-, -, hfits, -⟩ := parse?_eq_some hs
  refine hash_eq_ok_iff.2 ⟨hout, hwork, s, hs, ?_, rfl⟩
  rw [List.length_append, length_text hfits, length_digest_text]
  exact hout

/-- How many characters a digest has. -/
def digestLength : Nat := 31

/-- All parts of a setting, and 31 characters of digest. -/
def layout : Layout where
  Reading := Setting
  read? := parse?
  head := Setting.text
  isLength n := n == digestLength
  isChar := Field.isCryptChar
  sizing _ _ _ := true
  isLength_zero := rfl
  isForbidden_of_isChar := Field.isForbidden_of_isCryptChar
  reread hs _ _ := by
    obtain ⟨-, -, hfits, -⟩ := parse?_eq_some hs
    exact parse?_text_append hfits _
  hasForbidden_head _ _ := hasForbidden_text _

theorem layout_describes : layout.Describes hash where
  shape hh := by
    obtain ⟨-, -, s, hs, hfit, rfl⟩ := hash_eq_ok_iff.1 hh
    exact ⟨hfit, s, _, hs, ⟨beq_iff_eq.2 (length_digest_text _ _),
      fun c hc => Field.isCryptChar_of_has_bcrypt (has_of_mem_encodeHigh hc)⟩, rfl⟩
  congr {room phrase setting setting'} s hr hr' _ := by
    replace hr : parse? setting = some s := hr
    replace hr' : parse? setting' = some s := hr'
    -- the repeated characters differ in their spelling at most
    obtain ⟨last, hlast, htext⟩ := take_append_of_parse? hr
    obtain ⟨last', hlast', htext'⟩ := take_append_of_parse? hr'
    simp only [hash, hr, hr', hlast, hlast', Failure.orInvalid, bind, Except.bind, htext, htext']

/-! ## Fresh settings -/

/-- The default cost is within the bounds, and any other one is checked. -/
theorem freshCost?_eq_some {count cost : Nat} (h : freshCost? count = some cost) :
    minCost ≤ cost ∧ cost ≤ maxCost := by
  unfold freshCost? at h
  split at h
  · cases h
    decide
  · split at h
    · next hin =>
      cases h
      exact hin
    · cases h

theorem eq_of_freshCost? {count cost : Nat} (h : freshCost? count = some cost) :
    cost = if count = 0 then 5 else count := by
  unfold freshCost? at h
  split at h
  · next hzero => rw [if_pos hzero, ← Option.some.inj h]
  · next hzero =>
    split at h
    · rw [if_neg hzero, ← Option.some.inj h]
    · cases h

/-- A fresh setting is the text of an admissible cost and sixteen bytes of salt. -/
theorem generate_eq_ok {capacity count : Nat} {random : Bytes}
    (hg : generate v capacity count random = .ok setting) :
    ∃ cost, freshCost? count = some cost ∧ setting = Setting.text ⟨v, cost, random.take 16⟩ ∧
      Setting.Fits ⟨v, cost, random.take 16⟩ := by
  simp only [generate, Checks.need_bind_eq_ok_iff, Checks.orInvalid_bind_eq_ok_iff,
    Checks.unlessInvalid_bind_eq_ok_iff, Room.fit_eq_ok_iff, Bool.and_eq_true,
    decide_eq_true_eq] at hg
  obtain ⟨-, cost, hcost, ⟨hrandom, -⟩, -, rfl⟩ := hg
  obtain ⟨hmin, hmax⟩ := freshCost?_eq_some hcost
  have hlen : (random.take 16).length = 16 := by
    rw [List.length_take]
    omega
  refine ⟨cost, hcost, ?_, hmin, hmax, hlen⟩
  simp [Setting.text]

/-- Cost and salt are read back from a fresh setting. -/
theorem parse?_generate {capacity count : Nat} {random : Bytes}
    (hg : generate v capacity count random = .ok setting) :
    parse? setting = some ⟨v, if count = 0 then 5 else count, random.take 16⟩ := by
  obtain ⟨cost, hcost, rfl, hs⟩ := generate_eq_ok hg
  rw [parse?_text hs, eq_of_freshCost? hcost]

theorem usable_text (hs : s.Fits) :
    layout.Usable hash ⟨384, Hashing.scratchSize⟩ s.text := by
  have hread := parse?_text hs
  constructor
  case reads => exact ⟨_, hread, List.prefix_rfl⟩
  case hasForbidden => exact hasForbidden_text _
  case hashes =>
    intro phrase _
    exact ⟨_, hash_of_parse? (by decide) (by decide) hread phrase⟩

theorem generate_demands (v : Variant) (count : Nat) (random : Bytes) :
    Room.Demands fun room => generate v room.output count random :=
  .bind (.output _) fun _ => .bind (.const _) fun _ => .bind (.const _) fun _ => .fit _

theorem generate_fitting (v : Variant) (capacity count : Nat) (random : Bytes) :
    Room.Fitting capacity (generate v capacity count random) :=
  .bind fun _ => .bind fun _ => .bind fun _ => .fit _

theorem usable_of_generate {capacity count : Nat} {random : Bytes}
    (hg : generate v capacity count random = .ok setting) :
    layout.Usable hash ⟨384, Hashing.scratchSize⟩ setting ∧ v.tag <+: setting := by
  obtain ⟨cost, -, rfl, hs⟩ := generate_eq_ok hg
  exact ⟨usable_text hs, List.prefix_append ..⟩

/-! ## Salting -/

/-- A salt holds sixteen random bytes and ends a fresh setting. -/
def salting : Salting where
  part random := random.take 16
  write := encodeHigh .bcrypt
  field := Field.afterLast
  least := 0

theorem salting_describes (v : Variant) (capacity : Nat) :
    salting.Describes (generate v capacity) where
  field_eq {count random setting} hg := by
    simp only [generate, Checks.need_bind_eq_ok_iff, Checks.orInvalid_bind_eq_ok_iff,
      Checks.unlessInvalid_bind_eq_ok_iff, Checks.fit_eq_ok_iff] at hg
    obtain ⟨-, cost, -, -, -, rfl⟩ := hg
    have hsalt : Field.dollar ∉ encodeHigh .bcrypt (random.take 16) :=
      Field.dollar_notMem fun _ hc => Field.isCryptChar_of_has_bcrypt (has_of_mem_encodeHigh hc)
    rw [List.append_assoc]
    exact Field.afterLast_append _ hsalt
  part_eq_nil_iff {count random setting} hg := by
    simp only [generate, Checks.need_bind_eq_ok_iff, Checks.orInvalid_bind_eq_ok_iff,
      Checks.unlessInvalid_bind_eq_ok_iff, Bool.and_eq_true, decide_eq_true_eq] at hg
    obtain ⟨-, cost, -, ⟨hrandom, -⟩, -⟩ := hg
    refine iff_of_false (fun h => ?_) (Nat.not_lt_zero _)
    have hlen : (random.take 16).length = 0 := congrArg List.length h
    rw [List.length_take] at hlen
    omega
  part_nil := rfl
  write_nil := rfl
  write_injective h := encodeHigh_injective .bcrypt h

end Bcrypt

end PassHash
