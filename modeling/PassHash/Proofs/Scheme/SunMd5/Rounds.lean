import Mathlib.Logic.Function.Iterate
import PassHash.Proofs.Scheme.SunMd5

/-!
# Rounds of Sun MD5

The number of rounds is a sum in 32 bits: with `n` stated rounds there are `4096 + n` of them as
long as that is less than `2 ^ 32`, and `4096 + n - 2 ^ 32` otherwise, which is fewer than the 4096
that every hash should have. The setting may state up to `2 ^ 32 - 1` rounds, and fresh settings
come that close with a large count: they state up to 65535 rounds more than the bound that is put on
the count.

The rounds are counted while they are done: a hash with its count is the hash, with one number
beside it.

## Contents

- `SunMd5.Progress`: the rounds that have been done, and the digest after them
- `SunMd5.countedHash`: a hash with the number of its rounds
- `SunMd5.States`: what a text says about the rounds
- `SunMd5.maxExact`: the most stated rounds that are not too many for 32 bits

## Main statements

- `SunMd5.countedHash_eq_map`: counting does not change the hash, and how many rounds there are
- `SunMd5.rounds_run`: the rounds of every setting and of every fresh setting
-/

namespace PassHash

namespace SunMd5

variable {setting : Bytes} {s : Setting}

/-! ## Counting -/

/-- What a hash has come to: the rounds that have been done, and the digest after them. -/
structure Progress where
  done : Nat
  digest : Bytes

namespace Progress

/-- Ahead of the first round. -/
def start (s : Setting) (phrase : Bytes) : Progress := ⟨0, Md5.digest (phrase ++ s.text)⟩

/-- After one more round, which hashes the number of those before it. -/
def next (p : Progress) : Progress := ⟨p.done + 1, step p.digest p.done⟩

theorem done_iterate_next (p : Progress) (k : Nat) : (next^[k] p).done = p.done + k := by
  induction k with
  | zero => rfl
  | succ k ih =>
    rw [Function.iterate_succ_apply', next, ih]
    rfl

/-- The rounds by their number are the rounds in sequence, for each of them has the number of those
    that have been done. -/
theorem digest_iterate_next (d : Bytes) (k : Nat) :
    (next^[k] ⟨0, d⟩).digest = Nat.fold k (fun i _ d => step d i) d := by
  induction k with
  | zero => rfl
  | succ k ih =>
    have hdone : (next^[k] ⟨0, d⟩).done = k := (done_iterate_next ⟨0, d⟩ k).trans (Nat.zero_add k)
    rw [Function.iterate_succ_apply', next, ih, hdone, Nat.fold_succ]

end Progress

/-- What a hash has come to after all its rounds. -/
def progress (s : Setting) (phrase : Bytes) : Progress :=
  Progress.next^[s.rounds.toNat] (.start s phrase)

theorem progress_eq (s : Setting) (phrase : Bytes) :
    progress s phrase = ⟨s.rounds.toNat, digest s phrase⟩ := by
  have hdone : (progress s phrase).done = 0 + s.rounds.toNat := Progress.done_iterate_next _ _
  have hdigest : (progress s phrase).digest = digest s phrase := Progress.digest_iterate_next _ _
  rw [Nat.zero_add] at hdone
  rw [← hdone, ← hdigest]

/-- The number of rounds that were done for a hash, and the hash. -/
def countedHash (room : Room) (phrase setting : Bytes) : Except Failure (Nat × Bytes) := do
  let s ← Failure.orInvalid (parse? setting)
  Room.need room.output (s.text.length + 22 + 2)
  Room.need room.scratch 16
  let p := progress s phrase
  let text ← Room.fit room.output (head s ++ Base64.scatter Md5Crypt.order p.digest)
  pure (p.done, text)

/-- The rounds that are done are the number of rounds in 32 bits, and the hash is the hash. -/
theorem countedHash_eq_map (hs : parse? setting = some s) (room : Room) (phrase : Bytes) :
    countedHash room phrase setting = (hash room phrase setting).map (s.rounds.toNat, ·) := by
  simp only [countedHash, hash, hs, progress_eq]
  show (do
    Room.need room.output (s.text.length + 22 + 2)
    Room.need room.scratch 16
    let text ← Room.fit room.output (head s ++ _)
    pure (s.rounds.toNat, text)) = Except.map _ (do
    Room.need room.output (s.text.length + 22 + 2)
    Room.need room.scratch 16
    Room.fit room.output (head s ++ _))
  cases Room.need room.output (s.text.length + 22 + 2) with
  | error e => rfl
  | ok _ =>
    cases Room.need room.scratch 16 with
    | error e => rfl
    | ok _ => rfl

/-! ## Numbers of rounds -/

/-- The stated rounds, none if the setting does not state any. -/
def Setting.stated (s : Setting) : Nat := s.rounds?.getD 0

/-- The most stated rounds that are all done: with the rounds of every hash they make the largest
    number of 32 bits. -/
def maxExact : Nat := 4294963199

/-- The rounds of every hash come on top of the stated ones, in 32 bits. -/
theorem Setting.toNat_rounds (s : Setting) : s.rounds.toNat = (4096 + s.stated) % 2 ^ 32 := by
  rw [Setting.rounds, UInt32.toNat_add, UInt32.toNat_ofNat', Nat.add_mod_mod]
  rfl

theorem Setting.Fits.stated_le (hs : s.Fits) : s.stated ≤ maxRounds := by
  cases hr : s.rounds? with
  | none => simp [Setting.stated, hr]
  | some n => simpa [Setting.stated, hr] using (hs.rounds n hr).2

/-- Up to `maxExact` stated rounds the sum is exact, and beyond it is too small by `2 ^ 32`. -/
theorem Setting.Fits.toNat_rounds (hs : s.Fits) :
    s.rounds.toNat =
      if s.stated ≤ maxExact then 4096 + s.stated else 4096 + s.stated - 2 ^ 32 := by
  have hmax : s.stated < 2 ^ 32 := Nat.lt_succ_of_le hs.stated_le
  rw [s.toNat_rounds]
  unfold maxExact
  split
  · omega
  · omega

/-! ## Stated rounds -/

/-- A setting states rounds after its separator, or it goes on without the name of that field. -/
inductive States (separator : UInt8) : Bytes → Option Nat → Prop where
  | rounds (n : Nat) (rest : Bytes) : States separator
      (tag ++ separator :: (Bytes.ascii "rounds=" ++ Bytes.decimal n ++ Field.dollar :: rest))
      (some n)
  | absent (rest : Bytes) (h : ¬ Bytes.ascii "rounds=" <+: rest) :
      States separator (tag ++ separator :: rest) none

/-- What is read of the rounds is their field in decimal, if the text starts with the name of the
    field, and nothing otherwise. -/
theorem roundsField?_eq_some {rounds? : Option Nat} {text rest : Bytes}
    (h : roundsField? text = some (rounds?, rest)) :
    (rounds? = none ∧ ¬ Bytes.ascii "rounds=" <+: text) ∨
      ∃ n, rounds? = some n ∧
        text = Bytes.ascii "rounds=" ++ Bytes.decimal n ++ Field.dollar :: rest := by
  rw [roundsField?] at h
  split at h
  · next hnone =>
    cases h
    refine .inl ⟨rfl, ?_⟩
    rintro ⟨rest, rfl⟩
    rw [Bytes.after?_append] at hnone
    cases hnone
  · next number hnumber =>
    simp only [Option.bind_eq_bind, Option.bind_eq_some_iff] at h
    obtain ⟨⟨n, after⟩, hn, h⟩ := h
    obtain ⟨-, -, rfl, -⟩ := Field.number?_eq_some_iff.1 hn
    cases after with
    | nil => cases h
    | cons c after =>
      simp only at h
      split at h
      · next hc =>
        cases h
        refine .inr ⟨n, rfl, ?_⟩
        rw [Bytes.after?_eq_some_iff.1 hnumber, hc, List.append_assoc]
      · cases h

/-- What is read of the rounds is what the setting states. -/
theorem states_of_parse? (hs : parse? setting = some s) :
    States s.separator setting s.rounds? := by
  simp only [parse?, Option.bind_eq_bind, Option.bind_eq_some_iff] at hs
  obtain ⟨body, hbody, hs⟩ := hs
  rw [Bytes.after?_eq_some_iff] at hbody
  subst hbody
  cases body with
  | nil => cases hs
  | cons separator rest =>
    simp only at hs
    split at hs
    · simp only [Option.bind_eq_some_iff] at hs
      obtain ⟨⟨rounds?, after⟩, hrounds, salt, -, hs⟩ := hs
      cases hs
      rcases roundsField?_eq_some hrounds with ⟨rfl, hname⟩ | ⟨n, rfl, rfl⟩
      · exact .absent rest hname
      · exact .rounds n after
    · cases hs

/-! ## Fresh settings -/

section Fresh

variable {capacity : Nat} {rest : Bytes}

/-- There is a fresh setting from eight random bytes, with the salt from the last six of them. -/
theorem exists_generate (hcapacity : 33 ≤ capacity) (count : Nat) (a b : UInt8)
    (hrest : 6 ≤ rest.length) :
    ∃ salt, generate capacity count (a :: b :: rest) =
        .ok (fresh (freshRounds count a b) salt).text ∧
      (∀ c ∈ salt, Field.isCryptChar c = true) ∧ salt.length = 8 := by
  match rest, hrest with
  | c :: d :: e :: f :: g :: h :: _, _ =>
    have hlen : (Base64.group [e, d, c] ++ Base64.group [h, g, f]).length = 8 := by
      simp [Base64.length_group, Base64.charsFor]
    have hfit : (fresh (freshRounds count a b)
        (Base64.group [e, d, c] ++ Base64.group [h, g, f])).text.length ≤ 24 + _ :=
      length_text_fresh_le (freshRounds_bounds count a b).2
    refine ⟨_, ?_, fun x hx => ?_, hlen⟩
    · rw [text_fresh] at hfit ⊢
      simp only [generate, Checks.need_bind_eq_ok_iff, Checks.fit_eq_ok_iff]
      simp only [List.append_assoc] at hfit ⊢
      exact ⟨hcapacity, by omega, trivial⟩
    · rcases List.mem_append.1 hx with hx | hx
      · exact Base64.has_of_mem_digits hx
      · exact Base64.has_of_mem_digits hx

/-- The stated rounds of a fresh setting are at least 32768, and at most 65535 more than the count
    or that bound. -/
theorem freshRounds_between (count : Nat) (a b : UInt8) :
    32768 ≤ freshRounds count a b ∧ freshRounds count a b ≤ max 32768 count + 65535 := by
  have ha := a.toNat_lt
  have hb := b.toNat_lt
  unfold freshRounds
  omega

/-- With 32768 stated rounds or more there are 36864 rounds or more exactly if the sum is exact, for
    otherwise there are fewer than 4096. -/
theorem le_toNat_rounds_fresh_iff {n : Nat} {salt : Bytes} (hfits : (fresh n salt).Fits)
    (hn : 32768 ≤ n) : 4096 + 32768 ≤ (fresh n salt).rounds.toNat ↔ n ≤ maxExact := by
  have hmax : n ≤ 4294967295 := hfits.stated_le
  have hrounds := hfits.toNat_rounds
  replace hrounds : _ = if n ≤ maxExact then 4096 + n else 4096 + n - 2 ^ 32 := hrounds
  rw [hrounds]
  split
  · next hle => exact iff_of_true (by omega) hle
  · next hgt => exact iff_of_false (by omega) hgt

end Fresh

/-- The rounds of a setting are its stated ones and 4096 more exactly if there are at most
    `maxExact` stated; with more the hash has fewer than 4096. A fresh setting has at least 36864
    rounds exactly if it states at most `maxExact`, and it does whenever that is 65535 more than the
    requested count. -/
theorem rounds_run (phrase : Bytes) :
    (∀ setting s, parse? setting = some s → States s.separator setting s.rounds? ∧
      ∀ room, countedHash room phrase setting = (hash room phrase setting).map
        ((if s.stated ≤ maxExact then 4096 + s.stated else 4096 + s.stated - 2 ^ 32), ·)) ∧
    ∀ capacity count a b rest, 33 ≤ capacity → 6 ≤ List.length rest →
      ∃ setting rounds, generate capacity count (a :: b :: rest) = .ok setting ∧
        (phrase.length ≤ Hashing.maxPhrase →
          ∃ h, countedHash ⟨384, Hashing.scratchSize⟩ phrase setting = .ok (rounds, h)) ∧
        (4096 + 32768 ≤ rounds ↔ freshRounds count a b ≤ maxExact) ∧
        (count + 65535 ≤ maxExact → 4096 + 32768 ≤ rounds) := by
  constructor
  · intro setting s hs
    refine ⟨states_of_parse? hs, fun room => ?_⟩
    rw [countedHash_eq_map hs, (fits_of_parse? hs).toNat_rounds]
  · intro capacity count a b rest hcapacity hrest
    obtain ⟨salt, hg, hchars, hlen⟩ := exists_generate hcapacity count a b hrest
    have hn := freshRounds_bounds count a b
    have hfits := fits_fresh hn hchars
    have hbetween := freshRounds_between count a b
    have hiff := le_toNat_rounds_fresh_iff hfits hbetween.1
    refine ⟨_, (fresh (freshRounds count a b) salt).rounds.toNat, hg, fun hphrase => ?_,
      hiff, fun hcount => hiff.2 ?_⟩
    · obtain ⟨h, hh⟩ := (usable_text_fresh hn hchars hlen.le).hashes hphrase
      refine ⟨h, ?_⟩
      rw [countedHash_eq_map (parse?_text_fresh hfits), hh]
      rfl
    · unfold maxExact at hcount ⊢
      omega

/-- The most rounds that a hash can have: all 32 bits of their number are set. A fresh setting for
    the least count that is kept has enough of them. -/
theorem rounds_run_largest :
    (States ','.toUInt8 (Bytes.ascii "$md5,rounds=4294963199$12345678$") (some 4294963199) ∧
      countedHash ⟨384, Hashing.scratchSize⟩ (Bytes.ascii "phrase")
          (Bytes.ascii "$md5,rounds=4294963199$12345678$") =
        (hash ⟨384, Hashing.scratchSize⟩ (Bytes.ascii "phrase")
          (Bytes.ascii "$md5,rounds=4294963199$12345678$")).map (2 ^ 32 - 1, ·)) ∧
      ∃ setting rounds, generate 192 32768 [0, 0, 0, 0, 0, 0, 0, 0] = .ok setting ∧
        (∃ h, countedHash ⟨384, Hashing.scratchSize⟩ (Bytes.ascii "phrase") setting =
          .ok (rounds, h)) ∧
        4096 + 32768 ≤ rounds := by
  have hs : parse? (Bytes.ascii "$md5,rounds=4294963199$12345678$") =
      some ⟨','.toUInt8, some 4294963199, Bytes.ascii "12345678", true⟩ := by
    decide
  obtain ⟨hsettings, hfresh⟩ := rounds_run (Bytes.ascii "phrase")
  obtain ⟨hstates, hcounted⟩ := hsettings _ _ hs
  obtain ⟨setting, rounds, hg, hhashes, -, hcount⟩ :=
    hfresh 192 32768 0 0 [0, 0, 0, 0, 0, 0] (by decide) (by decide)
  exact ⟨⟨hstates, hcounted _⟩, setting, rounds, hg, hhashes (by decide), hcount (by decide)⟩

/-- One stated round more, and there are none: for a large count and two of the random bytes, a
    fresh setting leaves the phrase and itself to a single digest. -/
theorem rounds_run_none :
    generate 192 (2 ^ 64 - 1) [0xf0, 0x01, 0, 0, 0, 0, 0, 0] =
        .ok (Bytes.ascii "$md5,rounds=4294963200$........$") ∧
      countedHash ⟨384, Hashing.scratchSize⟩ (Bytes.ascii "phrase")
          (Bytes.ascii "$md5,rounds=4294963200$........$") =
        .ok (0, Bytes.ascii "$md5,rounds=4294963200$........$$" ++
          Base64.scatter Md5Crypt.order
            (Md5.digest (Bytes.ascii "phrase$md5,rounds=4294963200$........$"))) := by
  have hs : parse? (Bytes.ascii "$md5,rounds=4294963200$........$") =
      some ⟨','.toUInt8, some 4294963200, Bytes.ascii "........", true⟩ := by
    decide
  refine ⟨by decide, ?_⟩
  rw [countedHash_eq_map hs]
  have hh : hash ⟨384, Hashing.scratchSize⟩ (Bytes.ascii "phrase")
      (Bytes.ascii "$md5,rounds=4294963200$........$") = .ok _ :=
    hash_eq_ok_iff.2 ⟨_, hs, by decide, by decide, ?_, rfl⟩
  · rw [hh]
    rfl
  · rw [List.length_append, length_digest_text]
    decide

end SunMd5

end PassHash
