import PassHash.Proofs.Base64.HighFirst
import PassHash.Proofs.Checks
import PassHash.Proofs.Layout
import PassHash.Proofs.Salting
import PassHash.Scheme.Argon2Hash

/-!
# Settings of Argon2

Version and cost are numbers without leading zeros and the salt is in canonical base 64, so every
part of a setting has one spelling. A hash repeats them and reads as a setting with the same parts.

## Main statements

- `Argon2Hash.parse?_text_append`: a setting is read back from its text
- `Argon2Hash.hash_eq_ok_iff`: when there is a hash, and which
- `Argon2Hash.hash_demands`, `Argon2Hash.generate_demands`: more room makes no difference, and too
  little is refused
- `Argon2Hash.layout`, `Argon2Hash.layout_describes`: the layout of hashes
- `Argon2Hash.generate_eq_ok`, `Argon2Hash.parse?_generate`: what a fresh setting consists of, and
  what is read from it
- `Argon2Hash.usable_of_generate`: fresh settings are fit for use
- `Argon2Hash.salting_describes`: how fresh settings are salted
-/

namespace PassHash

namespace Argon2Hash

open Argon2 Base64

variable {v : Variant} {room : Room} {phrase setting h : Bytes} {s : Setting}

/-! ## Named numbers -/

/-- The largest number under a name. -/
def maxNumber : Nat := 0xffffffff

theorem value?_eq_some {name : String} {stop : Char} {t rest : Bytes} {n : Nat}
    (hv : value? name stop t = some (n, rest)) :
    0 < n ∧ n ≤ maxNumber ∧
      t = Bytes.ascii name ++ (Bytes.decimal n ++ stop.toUInt8 :: rest) := by
  simp only [value?, Option.bind_eq_bind, Option.bind_eq_some_iff] at hv
  obtain ⟨number, hname, ⟨m, after⟩, hnumber, hv⟩ := hv
  obtain ⟨hpos, hmax, rfl, -⟩ := Field.number?_eq_some_iff.1 hnumber
  -- the number must be followed by the one character that ends it
  cases after with
  | nil => cases hv
  | cons c after =>
    simp only at hv
    split at hv
    · next hc =>
      subst hc
      cases hv
      exact ⟨hpos, hmax, Bytes.after?_eq_some_iff.1 hname⟩
    · cases hv

theorem value?_append {name : String} {stop : Char} {n : Nat} (hpos : 0 < n) (hmax : n ≤ maxNumber)
    (hstop : Bytes.isDigit stop.toUInt8 = false) (rest : Bytes) :
    value? name stop (Bytes.ascii name ++ (Bytes.decimal n ++ stop.toUInt8 :: rest)) =
      some (n, rest) := by
  have hnumber : Field.number? 0xffffffff (Bytes.decimal n ++ stop.toUInt8 :: rest) =
      some (n, stop.toUInt8 :: rest) :=
    Field.number?_decimal_append hpos hmax (Bytes.stops_cons.2 hstop)
  rw [value?, Bytes.after?_append]
  simp [hnumber]

/-! ## Reading -/

/-- What a setting that is read fulfils. -/
structure Setting.Fits (s : Setting) : Prop where
  version : 0 < s.version ∧ s.version ≤ maxNumber
  memory : 0 < s.cost.memory ∧ s.cost.memory ≤ maxNumber
  passes : 0 < s.cost.passes ∧ s.cost.passes ≤ maxNumber
  lanes : 0 < s.cost.lanes ∧ s.cost.lanes ≤ maxNumber

theorem fits_of_parse? (hs : parse? v setting = some s) : s.Fits := by
  unfold parse? at hs
  split at hs
  · cases hs
  · simp only [Option.bind_eq_bind, Option.bind_eq_some_iff] at hs
    obtain ⟨t₀, -, ⟨version, t₁⟩, hversion, ⟨memory, t₂⟩, hmemory, ⟨passes, t₃⟩, hpasses,
      ⟨lanes, t₄⟩, hlanes, salt, -, hs⟩ := hs
    cases hs
    obtain ⟨hversion, hversion', -⟩ := value?_eq_some hversion
    obtain ⟨hmemory, hmemory', -⟩ := value?_eq_some hmemory
    obtain ⟨hpasses, hpasses', -⟩ := value?_eq_some hpasses
    obtain ⟨hlanes, hlanes', -⟩ := value?_eq_some hlanes
    exact ⟨⟨hversion, hversion'⟩, ⟨hmemory, hmemory'⟩, ⟨hpasses, hpasses'⟩, ⟨hlanes, hlanes'⟩⟩

theorem ne_dollar_of_has_standard {c : UInt8} (hc : Alphabet.standard.has c = true) :
    (c != Field.dollar) = true := by
  rcases Field.isCryptChar_or_plus_of_has_standard hc with hc | rfl
  · exact bne_iff_ne.2 (Field.ne_dollar_of_isCryptChar hc)
  · decide

/-- The salt is what goes up to the next separator. -/
theorem takeWhile_encodeHigh_append (salt rest : Bytes) :
    (encodeHigh .standard salt ++ Field.dollar :: rest).takeWhile (· != Field.dollar) =
      encodeHigh .standard salt :=
  Bytes.takeWhile_append_of_stops (p := (· != Field.dollar))
    (fun _ hc => ne_dollar_of_has_standard (has_of_mem_encodeHigh hc))
    (Bytes.stops_cons.2 (by simp))

/-- A setting is read back from its text, ahead of anything that makes it long enough. -/
theorem parse?_text_append (hs : s.Fits) {rest : Bytes}
    (hlen : minLength ≤ (s.text v ++ rest).length) : parse? v (s.text v ++ rest) = some s := by
  -- a name is read up to its equals sign, and the character ahead of it with the number before
  have hm : Bytes.ascii "$m=" = '$'.toUInt8 :: Bytes.ascii "m=" := by decide
  have ht : Bytes.ascii ",t=" = ','.toUInt8 :: Bytes.ascii "t=" := by decide
  have hp : Bytes.ascii ",p=" = ','.toUInt8 :: Bytes.ascii "p=" := by decide
  have htext : s.text v ++ rest = tag v ++
      (Bytes.ascii "v=" ++ (Bytes.decimal s.version ++ '$'.toUInt8 ::
      (Bytes.ascii "m=" ++ (Bytes.decimal s.cost.memory ++ ','.toUInt8 ::
      (Bytes.ascii "t=" ++ (Bytes.decimal s.cost.passes ++ ','.toUInt8 ::
      (Bytes.ascii "p=" ++ (Bytes.decimal s.cost.lanes ++ '$'.toUInt8 ::
      (encodeHigh .standard s.salt ++ Field.dollar :: rest))))))))) := by
    simp [Setting.text, costText, hm, ht, hp, Field.dollar]
  rw [parse?, if_neg (Nat.not_lt.2 hlen), htext, Bytes.after?_append]
  simp only [Option.bind_eq_bind, Option.bind_some]
  rw [value?_append hs.version.1 hs.version.2 (by decide), Option.bind_some,
    value?_append hs.memory.1 hs.memory.2 (by decide), Option.bind_some,
    value?_append hs.passes.1 hs.passes.2 (by decide), Option.bind_some,
    value?_append hs.lanes.1 hs.lanes.2 (by decide), Option.bind_some,
    takeWhile_encodeHigh_append, decodeWhole?_encodeHigh]
  rfl

/-! ## Hashing -/

/-- What hashing demands of a setting: little enough memory, a version that exists, a cost in the
    bounds of the algorithm, and a salt that is long enough. -/
structure Setting.Admissible (s : Setting) (version : Version) : Prop where
  memory_le : s.cost.memory ≤ maxMemory
  version : Version.ofNumber? s.version = some version
  cost_ok : s.cost.ok = true
  minSalt_le : minSalt ≤ s.salt.length

/-- The digest of a phrase. -/
def digestText (v : Variant) (version : Version) (s : Setting) (phrase : Bytes) : Bytes :=
  encodeHigh .standard (derive v version s.cost digestSize phrase s.salt)

theorem hash_eq_ok_iff : hash v room phrase setting = .ok h ↔
    ∃ s version, parse? v setting = some s ∧ s.Admissible version ∧ digestSize ≤ room.scratch ∧
      h.length + 1 ≤ room.output ∧ s.text v ++ digestText v version s phrase = h := by
  simp only [hash, Checks.need_bind_eq_ok_iff, Checks.orInvalid_bind_eq_ok_iff,
    Checks.unlessInvalid_bind_eq_ok_iff, Checks.ite_throw_bind_eq_ok_iff, Checks.fit_eq_ok_iff,
    Nat.not_lt, decide_eq_true_eq]
  constructor
  · rintro ⟨s, hread, hmemory, version, hversion, hcost, hs, hsalt, hfit, hmade⟩
    exact ⟨s, version, hread, ⟨hmemory, hversion, hcost, hsalt⟩, hs, hfit, hmade⟩
  · rintro ⟨s, version, hread, ⟨hmemory, hversion, hcost, hsalt⟩, hs, hfit, hmade⟩
    exact ⟨s, hread, hmemory, version, hversion, hcost, hs, hsalt, hfit, hmade⟩

theorem hash_demands (v : Variant) (phrase setting : Bytes) :
    Room.Demands fun room => hash v room phrase setting :=
  .bind (.const _) fun _ => .ite (.const _) <|
    .bind (.const _) fun _ => .bind (.const _) fun _ =>
      .bind (.scratch _) fun _ => .bind (.const _) fun _ => .fit _

theorem length_digestText (v : Variant) (version : Version) (s : Setting) (phrase : Bytes) :
    (digestText v version s phrase).length = 43 := by
  rw [digestText, length_encodeHigh, length_derive]
  rfl

/-- Whether a character may occur in a digest. -/
def isDigestChar (c : UInt8) : Bool := Field.isCryptChar c || c == '+'.toUInt8

theorem isDigestChar_of_has_standard {c : UInt8} (hc : Alphabet.standard.has c = true) :
    isDigestChar c = true := by
  rcases Field.isCryptChar_or_plus_of_has_standard hc with hc | rfl
  · simp [isDigestChar, hc]
  · decide +kernel

theorem isForbidden_of_isDigestChar {c : UInt8} (hc : isDigestChar c = true) :
    Setting.isForbidden c = false := by
  rw [isDigestChar, Bool.or_eq_true, beq_iff_eq] at hc
  rcases hc with hc | rfl
  · exact Field.isForbidden_of_isCryptChar hc
  · decide

theorem hasForbidden_text (v : Variant) (s : Setting) :
    Setting.hasForbidden (s.text v) = false := by
  have htag : Setting.hasForbidden (tag v) = false := by cases v <;> decide
  have hv : Setting.hasForbidden (Bytes.ascii "v=") = false := by decide
  have hm : Setting.hasForbidden (Bytes.ascii "$m=") = false := by decide
  have ht : Setting.hasForbidden (Bytes.ascii ",t=") = false := by decide
  have hp : Setting.hasForbidden (Bytes.ascii ",p=") = false := by decide
  have hsalt : Setting.hasForbidden (encodeHigh .standard s.salt) = false :=
    Setting.hasForbidden_eq_false_iff.2 fun _ hc =>
      isForbidden_of_isDigestChar (isDigestChar_of_has_standard (has_of_mem_encodeHigh hc))
  simp [Setting.text, costText, htag, hv, hm, ht, hp, hsalt, Setting.hasForbidden_decimal]

theorem tag_prefix_text (v : Variant) (s : Setting) : tag v <+: s.text v := by
  rw [Setting.text, List.append_assoc, List.append_assoc]
  exact List.prefix_append ..

/-- How many characters a digest has. -/
def digestLength : Nat := 43

/-- Version, cost and salt, and 43 characters of digest in the standard alphabet. -/
def layout (v : Variant) : Layout where
  Reading := Setting
  read? := parse? v
  head := Setting.text v
  isLength n := n == digestLength
  isChar := isDigestChar
  sizing _ _ _ := true
  isLength_zero := rfl
  isForbidden_of_isChar := isForbidden_of_isDigestChar
  reread hs hlen _ := by
    apply parse?_text_append (fits_of_parse? hs)
    -- the digest alone is long enough
    rw [beq_iff_eq] at hlen
    rw [List.length_append, hlen]
    exact Nat.le_trans (by decide) (Nat.le_add_left ..)
  hasForbidden_head _ _ := hasForbidden_text ..

theorem layout_describes (v : Variant) : (layout v).Describes (hash v) where
  shape hh := by
    obtain ⟨s, version, hs, -, -, hfit, rfl⟩ := hash_eq_ok_iff.1 hh
    exact ⟨hfit, s, _, hs, ⟨beq_iff_eq.2 (length_digestText ..),
      fun c hc => isDigestChar_of_has_standard (has_of_mem_encodeHigh hc)⟩, rfl⟩
  congr hr hr' _ := by
    replace hr : parse? v _ = _ := hr
    replace hr' : parse? v _ = _ := hr'
    simp only [hash, hr, hr']

/-! ## Fresh settings -/

theorem length_text_le (hs : s.Fits) (v : Variant) :
    (s.text v).length ≤ 63 + (4 * s.salt.length + 2) / 3 := by
  have hlt : maxNumber < 10 ^ 10 := by decide
  have hdecimal : ∀ n, n ≤ maxNumber → (Bytes.decimal n).length ≤ 10 := fun n hn =>
    Bytes.length_decimal_le (by decide) (Nat.lt_of_le_of_lt hn hlt)
  have hversion := hdecimal _ hs.version.2
  have hmemory := hdecimal _ hs.memory.2
  have hpasses := hdecimal _ hs.passes.2
  have hlanes := hdecimal _ hs.lanes.2
  have htag : (tag v).length ≤ 10 := by cases v <;> decide
  have hnames : (Bytes.ascii "v=").length = 2 ∧ (Bytes.ascii "$m=").length = 3 ∧
      (Bytes.ascii ",t=").length = 3 ∧ (Bytes.ascii ",p=").length = 3 := by decide
  simp only [Setting.text, costText, List.length_append, List.length_singleton, hnames,
    length_encodeHigh]
  omega

/-- The parts of a fresh setting. -/
def fresh (passes : Nat) (random : Bytes) : Setting := ⟨19, ⟨4096, passes, 1⟩, random⟩

section Fresh

variable {passes : Nat} {random : Bytes} (hpos : 0 < passes)
include hpos

theorem fits_fresh (hpasses : passes ≤ maxNumber) : (fresh passes random).Fits where
  version := by
    show 0 < 19 ∧ 19 ≤ maxNumber
    decide
  memory := by
    show 0 < 4096 ∧ 4096 ≤ maxNumber
    decide
  passes := ⟨hpos, hpasses⟩
  lanes := by
    show 0 < 1 ∧ 1 ≤ maxNumber
    decide

theorem admissible_fresh (hmin : minSalt ≤ random.length) :
    (fresh passes random).Admissible .v19 where
  memory_le := by
    show 4096 ≤ maxMemory
    decide
  version := by
    show Version.ofNumber? 19 = some .v19
    decide
  cost_ok := by
    -- one lane of 4096 blocks keeps to every bound, and there is one pass at least
    simp only [Cost.ok, Bool.and_eq_true, decide_eq_true_eq]
    simp only [fresh]
    omega
  minSalt_le := hmin

end Fresh

theorem minLength_le_fresh (v : Variant) {passes : Nat} {random : Bytes}
    (hmin : minSalt ≤ random.length) : minLength ≤ ((fresh passes random).text v).length := by
  have htag : 9 ≤ (tag v).length := by cases v <;> decide
  have hnames : (Bytes.ascii "v=").length = 2 ∧ (Bytes.ascii "$m=").length = 3 ∧
      (Bytes.ascii ",t=").length = 3 ∧ (Bytes.ascii ",p=").length = 3 := by decide
  have hsalt : (fresh passes random).salt.length = random.length := rfl
  simp only [Setting.text, costText, List.length_append, List.length_singleton, hnames,
    length_encodeHigh, hsalt, minLength]
  unfold minSalt at hmin
  omega

theorem generate_demands (v : Variant) (count : Nat) (random : Bytes) :
    Room.Demands fun room => generate v room.output count random :=
  .bind (.const _) fun _ => .fit _

theorem generate_fitting (v : Variant) (capacity count : Nat) (random : Bytes) :
    Room.Fitting capacity (generate v capacity count random) :=
  .bind fun _ => .fit _

/-- A fresh setting is the text of its parts; the default stands for a count of zero. -/
theorem generate_eq_ok {capacity count : Nat} {random : Bytes}
    (hg : generate v capacity count random = .ok setting) :
    ∃ passes, passes = (if count = 0 then 3 else count) ∧ 0 < passes ∧ passes ≤ maxNumber ∧
      minSalt ≤ random.length ∧ random.length ≤ maxFreshSalt ∧
      setting = (fresh passes random).text v := by
  simp only [generate, Checks.unlessInvalid_bind_eq_ok_iff, Room.fit_eq_ok_iff, Bool.and_eq_true,
    decide_eq_true_eq] at hg
  obtain ⟨⟨⟨hpasses, hmin⟩, hmax⟩, -, rfl⟩ := hg
  refine ⟨_, rfl, ?_, hpasses, hmin, hmax, rfl⟩
  split
  · decide
  · omega

/-- Nothing follows a fresh setting, and it is long enough by itself. -/
theorem parse?_text_fresh (v : Variant) {passes : Nat} {random : Bytes} (hpos : 0 < passes)
    (hpasses : passes ≤ maxNumber) (hmin : minSalt ≤ random.length) :
    parse? v ((fresh passes random).text v) = some (fresh passes random) := by
  have hlen : minLength ≤ ((fresh passes random).text v ++ []).length := by
    rw [List.append_nil]
    exact minLength_le_fresh v hmin
  have hread := parse?_text_append (fits_fresh hpos hpasses) hlen
  rwa [List.append_nil] at hread

/-- Cost and salt are read back from a fresh setting. -/
theorem parse?_generate {capacity count : Nat} {random : Bytes}
    (hg : generate v capacity count random = .ok setting) :
    parse? v setting = some ⟨19, ⟨4096, if count = 0 then 3 else count, 1⟩, random⟩ := by
  obtain ⟨passes, rfl, hpos, hpasses, hmin, -, rfl⟩ := generate_eq_ok hg
  exact parse?_text_fresh v hpos hpasses hmin

theorem usable_of_generate {capacity count : Nat} {random : Bytes}
    (hg : generate v capacity count random = .ok setting) :
    (layout v).Usable (hash v) ⟨384, Hashing.scratchSize⟩ setting ∧ tag v <+: setting := by
  obtain ⟨passes, -, hpos, hpasses, hmin, hmax, rfl⟩ := generate_eq_ok hg
  have hread := parse?_text_fresh v hpos hpasses hmin
  have hfits : (fresh passes random).Fits := fits_fresh hpos hpasses
  have hlen := length_text_le hfits v
  have hsalt : (fresh passes random).salt.length = random.length := rfl
  refine ⟨?_, tag_prefix_text v _⟩
  constructor
  case reads => exact ⟨_, hread, List.prefix_rfl⟩
  case hasForbidden => exact hasForbidden_text v _
  case hashes =>
    intro phrase _
    refine ⟨_, hash_eq_ok_iff.2 ⟨_, .v19, hread, admissible_fresh hpos hmin, by decide, ?_, rfl⟩⟩
    -- the salt is bounded, and so is the text of the numbers
    rw [List.length_append, length_digestText]
    show _ ≤ 384
    unfold maxFreshSalt at hmax
    omega

/-! ## Salting -/

/-- A salt holds all random bytes and stands ahead of the last separator of a fresh setting. -/
def salting : Salting where
  part random := random
  write := encodeHigh .standard
  field setting := Field.afterLast setting.dropLast
  least := 0

theorem salting_describes (v : Variant) (capacity : Nat) :
    salting.Describes (generate v capacity) where
  field_eq {count random setting} hg := by
    simp only [generate, Checks.unlessInvalid_bind_eq_ok_iff, Checks.fit_eq_ok_iff] at hg
    obtain ⟨-, -, rfl⟩ := hg
    have hsalt : Field.dollar ∉ encodeHigh .standard random :=
      fun hc => bne_iff_ne.1 (ne_dollar_of_has_standard (has_of_mem_encodeHigh hc)) rfl
    show Field.afterLast (List.dropLast (_ ++ [Field.dollar])) = _
    rw [List.dropLast_concat, costText, ← List.append_assoc, List.append_assoc _ [Field.dollar]]
    exact Field.afterLast_append _ hsalt
  part_eq_nil_iff {count random setting} hg := by
    simp only [generate, Checks.unlessInvalid_bind_eq_ok_iff, Bool.and_eq_true,
      decide_eq_true_eq] at hg
    obtain ⟨⟨⟨-, hmin⟩, -⟩, -⟩ := hg
    refine iff_of_false (fun h => ?_) (Nat.not_lt_zero _)
    have hlen : random.length = 0 := congrArg List.length h
    rw [hlen] at hmin
    cases hmin
  part_nil := rfl
  write_nil := rfl
  write_injective h := encodeHigh_injective .standard h

end Argon2Hash

end PassHash
