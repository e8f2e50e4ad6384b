import PassHash.Proofs.Base64.LowFirst
import PassHash.Proofs.Characters
import PassHash.Proofs.Checks
import PassHash.Proofs.Salting
import PassHash.Scheme.RoundsSalt

/-!
# Fresh Salts and Rounds

A fresh salt consists of whole groups of characters, all from the crypt alphabet, and stops at the
bound of its scheme. A fresh setting with rounds is a marker, the rounds within their bounds, and
such a salt. The salt also stops where the room ends, so that less room means fewer groups of the
same salt.

## Contents

- `Field.IsGroup`: groups of characters of a fresh salt
- `Field.groups`: the groups of all bytes
- `RoundsSalt.lead`, `RoundsSalt.more`: a fresh setting up to its salt, and when that goes on
- `RoundsSalt.AddsGroups`: fresh settings with more and less of one salt
- `RoundsSalt.salting`: the random bytes that a fresh salt holds

## Main statements

- `Field.isCryptChar_of_mem_freshSalt`, `Field.length_freshSalt_le`: what a fresh salt consists of
- `Field.freshSalt_groups`: a salt that stops earlier lacks whole groups of the other one
- `Field.freshSalt_eq_groups`: what a fresh salt holds
- `Field.after?_rounds_eq_none`: a fresh salt does not pass for stated rounds
- `RoundsSalt.generate_eq_ok_iff`, `RoundsSalt.generate_eq_ok`: when there is a fresh setting with
  rounds, and what it consists of
- `RoundsSalt.exists_generate_eq_ok_iff`: the room that is asked for is enough
- `RoundsSalt.generate_groups`: what a fresh setting with rounds is in more room
- `RoundsSalt.salting_describes`: how fresh settings with rounds are salted
-/

namespace PassHash

/-! ## Salts -/

namespace Field

variable {order : Bytes → Bytes} {more : Nat → Bool}

theorem isCryptChar_of_mem_freshSalt {written : Nat} {random : Bytes} {c : UInt8}
    (h : c ∈ freshSalt order more written random) : isCryptChar c = true := by
  fun_induction freshSalt order more written random with
  | case1 written a b c' d rest hmore ih =>
    rcases List.mem_append.1 h with h | h
    · exact Base64.has_of_mem_digits h
    · exact ih h
  | case2 => simp at h
  | case3 => simp at h

theorem length_group_of_order (horder : ∀ bs : Bytes, (order bs).length = bs.length)
    (a b c : UInt8) : (Base64.group (order [a, b, c])).length = 4 := by
  simp [Base64.length_group, horder, Base64.charsFor]

/-- A fresh salt stops at a bound that is a multiple of four. -/
theorem add_length_freshSalt_le (horder : ∀ bs : Bytes, (order bs).length = bs.length)
    {bound : Nat} (hmore : ∀ n, more n = true → n < bound) {written : Nat} {random : Bytes}
    (hbound : 4 ∣ bound) (hdvd : 4 ∣ written) (hle : written ≤ bound) :
    written + (freshSalt order more written random).length ≤ bound := by
  fun_induction freshSalt order more written random with
  | case1 written a b c d rest h ih =>
    -- below the bound there is room for four more, both being multiples of four
    have hlt := hmore written h
    have hnext := ih (by omega) (by omega)
    rw [List.length_append, length_group_of_order horder]
    omega
  | case2 => simpa using hle
  | case3 => simpa using hle

theorem length_freshSalt_le (horder : ∀ bs : Bytes, (order bs).length = bs.length) {bound : Nat}
    (hmore : ∀ n, more n = true → n < bound) (hbound : 4 ∣ bound) (random : Bytes) :
    (freshSalt order more 0 random).length ≤ bound := by
  have hle : 0 + (freshSalt order more 0 random).length ≤ bound :=
    add_length_freshSalt_le horder hmore hbound (Nat.dvd_zero 4) (Nat.zero_le _)
  rwa [Nat.zero_add] at hle

/-- A salt depends on what lets it go on only where there is something left to go on with. -/
theorem freshSalt_congr {more' : Nat → Bool} {written : Nat} {random : Bytes}
    (h : ∀ k, 3 * k + 3 < random.length → more (written + 4 * k) = more' (written + 4 * k)) :
    freshSalt order more written random = freshSalt order more' written random := by
  fun_induction freshSalt order more written random with
  | case1 written a b c d rest hmore ih =>
    have hsame : more written = more' written := h 0 (by simp)
    have hrest : freshSalt order more (written + 4) (d :: rest) =
        freshSalt order more' (written + 4) (d :: rest) := by
      apply ih
      intro k hk
      -- the groups that are left are the later ones here
      have hnext := h (k + 1) (by simp only [List.length_cons] at hk ⊢; omega)
      rwa [Nat.mul_add, Nat.mul_one, Nat.add_comm (4 * k), ← Nat.add_assoc] at hnext
    conv => rhs; rw [freshSalt, if_pos (hsame ▸ hmore)]
    rw [hrest]
  | case2 written a b c d rest hmore =>
    have hsame : more written = more' written := h 0 (by simp)
    rw [freshSalt, if_neg (hsame ▸ hmore)]
  | case3 random written hshort => rw [freshSalt]; exact hshort

theorem freshSalt_ne_nil (horder : ∀ bs : Bytes, (order bs).length = bs.length)
    {written : Nat} {random : Bytes} (hmore : more written = true) (hlen : 4 ≤ random.length) :
    freshSalt order more written random ≠ [] := by
  match random, hlen with
  | a :: b :: c :: d :: rest, _ =>
    rw [freshSalt, if_pos hmore]
    intro h
    have hlen := congrArg List.length (List.append_eq_nil_iff.1 h).1
    rw [length_group_of_order horder] at hlen
    simp at hlen

/-- A group of a fresh salt: four characters of the alphabet. -/
def IsGroup (group : Bytes) : Prop := group.length = 4 ∧ ∀ c ∈ group, isCryptChar c = true

theorem isGroup_of_order (horder : ∀ bs : Bytes, (order bs).length = bs.length) (a b c : UInt8) :
    IsGroup (Base64.group (order [a, b, c])) :=
  ⟨length_group_of_order horder a b c, fun _ hc => Base64.has_of_mem_digits hc⟩

theorem exists_groups (horder : ∀ bs : Bytes, (order bs).length = bs.length)
    (more : Nat → Bool) (written : Nat) (random : Bytes) :
    ∃ groups : List Bytes, freshSalt order more written random = groups.flatten ∧
      ∀ g ∈ groups, IsGroup g := by
  fun_induction freshSalt order more written random with
  | case1 written a b c d rest h ih =>
    obtain ⟨groups, hsalt, hgroups⟩ := ih
    refine ⟨_ :: groups, by rw [hsalt, List.flatten_cons], ?_⟩
    exact List.forall_mem_cons.2 ⟨isGroup_of_order horder a b c, hgroups⟩
  | case2 => exact ⟨[], rfl, by simp⟩
  | case3 => exact ⟨[], rfl, by simp⟩

/-- A salt that stops earlier than another one of the same bytes lacks the last groups of it. -/
theorem freshSalt_groups (horder : ∀ bs : Bytes, (order bs).length = bs.length)
    {more' : Nat → Bool} (hmore : ∀ n, more n = true → more' n = true) (written : Nat)
    (random : Bytes) :
    ∃ kept added : List Bytes, freshSalt order more written random = kept.flatten ∧
      freshSalt order more' written random = (kept ++ added).flatten ∧
      ∀ g ∈ kept ++ added, IsGroup g := by
  fun_induction freshSalt order more written random with
  | case1 written a b c d rest h ih =>
    -- both salts go on
    obtain ⟨kept, added, hsalt, hsalt', hgroups⟩ := ih
    refine ⟨_ :: kept, added, by rw [hsalt, List.flatten_cons], ?_, ?_⟩
    · rw [freshSalt, if_pos (hmore written h), hsalt', List.cons_append, List.flatten_cons]
    · exact List.forall_mem_cons.2 ⟨isGroup_of_order horder a b c, hgroups⟩
  | case2 written a b c d rest h =>
    -- the shorter salt stops, and the other one is made of groups from here
    obtain ⟨groups, hsalt, hgroups⟩ := exists_groups horder more' written (a :: b :: c :: d :: rest)
    exact ⟨[], groups, rfl, hsalt, hgroups⟩
  | case3 random written h =>
    obtain ⟨groups, hsalt, hgroups⟩ := exists_groups horder more' written random
    exact ⟨[], groups, rfl, hsalt, hgroups⟩

/-- While there is room for a further group, a salt grows within its room. -/
theorem add_length_freshSalt_lt (horder : ∀ bs : Bytes, (order bs).length = bs.length)
    {room : Nat} (hmore : ∀ n, more n = true → n + 4 < room) {written : Nat} (random : Bytes)
    (hwritten : written < room) :
    written + (freshSalt order more written random).length < room := by
  fun_induction freshSalt order more written random with
  | case1 written a b c d rest h ih =>
    have hnext := ih (hmore written h)
    rw [List.length_append, length_group_of_order horder]
    omega
  | case2 => simpa using hwritten
  | case3 => simpa using hwritten

/-! ## Groups -/

/-- A group of characters for every three bytes, put into an order with the most significant
    first. -/
def groups (order : Bytes → Bytes) : Bytes → Bytes
  | a :: b :: c :: rest => Base64.group (order [a, b, c]) ++ groups order rest
  | _ => []

/-- A fresh salt that goes on for `limit` groups takes as many groups of three bytes, while there is
    a byte left over. -/
theorem freshSalt_eq_groups {limit written : Nat} {random : Bytes}
    (hmore : ∀ k, 3 * k + 3 < random.length → more (written + 4 * k) = decide (k < limit)) :
    freshSalt order more written random =
      groups order (random.take (3 * min limit ((random.length - 1) / 3))) := by
  fun_induction freshSalt order more written random generalizing limit with
  | case1 written a b c d rest h ih =>
    -- the salt goes on, so there is a group left of the limit
    have hfirst : more written = decide (0 < limit) := hmore 0 (by simp)
    obtain ⟨limit, rfl⟩ : ∃ l, limit = l + 1 :=
      Nat.exists_eq_add_one.2 (of_decide_eq_true (hfirst ▸ h))
    have hrest := @ih limit fun k hk => by
      -- the groups that are left are the later ones here
      have hnext := hmore (k + 1) (by simp only [List.length_cons] at hk ⊢; omega)
      rw [Nat.mul_add, Nat.mul_one, Nat.add_comm (4 * k), ← Nat.add_assoc] at hnext
      rw [hnext, decide_eq_decide]
      omega
    have hcount : 3 * min (limit + 1) (((a :: b :: c :: d :: rest).length - 1) / 3) =
        3 * min limit (((d :: rest).length - 1) / 3) + 3 := by
      simp only [List.length_cons]
      omega
    rw [hrest, hcount]
    rfl
  | case2 written a b c d rest h =>
    have hfirst : more written = decide (0 < limit) := hmore 0 (by simp)
    have hlimit : limit = 0 := by
      rw [hfirst, decide_eq_true_eq] at h
      omega
    rw [hlimit, Nat.zero_min, Nat.mul_zero, List.take_zero, groups]
    simp
  | case3 random written h =>
    -- three bytes and fewer leave none over
    have hshort : (random.length - 1) / 3 = 0 := by
      match random, h with
      | [], _ | [_], _ | [_, _], _ | [_, _, _], _ => simp
      | a :: b :: c :: d :: rest, h => exact absurd rfl (h a b c d rest)
    rw [hshort, Nat.min_zero, Nat.mul_zero, List.take_zero, groups]
    simp

theorem isCryptChar_of_mem_groups {b : Bytes} {c : UInt8} (h : c ∈ groups order b) :
    isCryptChar c = true := by
  fun_induction groups order b with
  | case1 x y z rest ih =>
    rcases List.mem_append.1 h with h | h
    · exact Base64.has_of_mem_digits h
    · exact ih h
  | case2 => simp at h

theorem length_groups (horder : ∀ bs : Bytes, (order bs).length = bs.length) (b : Bytes) :
    (groups order b).length = 4 * (b.length / 3) := by
  fun_induction groups order b with
  | case1 x y z rest ih =>
    rw [List.length_append, length_group_of_order horder, ih]
    simp only [List.length_cons]
    omega
  | case2 b hshort =>
    match b, hshort with
    | [], _ | [_], _ | [_, _], _ => simp
    | x :: y :: z :: rest, hshort => exact absurd rfl (hshort x y z rest)

/-- Groups are those of one byte string only, if its bytes come in threes. -/
theorem groups_injective (horder : ∀ bs : Bytes, (order bs).length = bs.length)
    (hinj : Function.Injective order) {b b' : Bytes} (hb : 3 ∣ b.length) (hb' : 3 ∣ b'.length)
    (h : groups order b = groups order b') : b = b' := by
  have hlen : b.length = b'.length := by
    have hgroups := congrArg List.length h
    rw [length_groups horder, length_groups horder] at hgroups
    omega
  clear hb'
  -- equal lengths are kept in place of the second divisibility, so both lose a group at once
  fun_induction groups order b generalizing b' with
  | case1 x y z rest ih =>
    match b', hlen with
    | x' :: y' :: z' :: rest', hlen =>
      have hgroup := length_group_of_order horder
      obtain ⟨hfirst, hrest⟩ := List.append_inj h ((hgroup x y z).trans (hgroup x' y' z').symm)
      have hthree : ∀ x y z, (order [x, y, z]).length = 3 := fun x y z => horder [x, y, z]
      have hbytes := hinj (Base64.group_injective (by rw [hthree]; decide) (hthree x y z).le
        ((hthree x' y' z').trans (hthree x y z).symm) hfirst)
      simp only [List.length_cons] at hb hlen
      rw [ih (by omega) hrest (by omega)]
      simp only [List.cons.injEq, and_true] at hbytes
      obtain ⟨rfl, rfl, rfl⟩ := hbytes
      rfl
  | case2 b hshort =>
    -- fewer than three bytes that come in threes are none
    match b, hb, hshort with
    | [], _, _ => exact (List.length_eq_zero_iff.1 hlen.symm).symm
    | [_], hb, _ | [_, _], hb, _ => simp at hb
    | x :: y :: z :: rest, _, hshort => exact absurd rfl (hshort x y z rest)

/-! ## Rounds -/

/-- The text of stated rounds. -/
def roundsText : Option Nat → Bytes
  | some n => Bytes.ascii "rounds=" ++ Bytes.decimal n ++ [dollar]
  | none => []

theorem hasForbidden_roundsText (rounds? : Option Nat) :
    Setting.hasForbidden (roundsText rounds?) = false := by
  cases rounds? with
  | none => rfl
  | some n =>
    have hname : Setting.hasForbidden (Bytes.ascii "rounds=") = false := by decide
    simp [roundsText, hname, Setting.hasForbidden_decimal]

theorem length_roundsText_le {rounds? : Option Nat} {k : Nat} (hk : 0 < k)
    (h : ∀ n ∈ rounds?, n < 10 ^ k) : (roundsText rounds?).length ≤ 8 + k := by
  cases rounds? with
  | none => simp [roundsText]
  | some n =>
    have hname : (Bytes.ascii "rounds=").length = 7 := by decide
    have hn := Bytes.length_decimal_le hk (h n rfl)
    simp only [roundsText, List.length_append, List.length_singleton, hname]
    omega

/-- No field of rounds is made of characters of the alphabet. -/
theorem after?_rounds_eq_none {s : Bytes} (hs : ∀ c ∈ s, isCryptChar c = true) :
    Bytes.after? (Bytes.ascii "rounds=") s = none := by
  rw [Option.eq_none_iff_forall_ne_some]
  intro rest hrest
  -- the name of the field contains a character that is not of the alphabet
  have hmem : '='.toUInt8 ∈ s := by
    rw [Bytes.after?_eq_some_iff.1 hrest]
    exact List.mem_append_left rest (by decide)
  have hequals : isCryptChar '='.toUInt8 = false := by decide +kernel
  rw [hs _ hmem] at hequals
  cases hequals

end Field

/-! ## Settings -/

namespace RoundsSalt

variable {s : RoundsSalt}

theorem rounds_le (h : s.minRounds ≤ s.maxRounds) (count : Nat) :
    s.rounds count ≤ s.maxRounds := by
  unfold rounds
  omega

theorem minRounds_le (s : RoundsSalt) (count : Nat) : s.minRounds ≤ s.rounds count :=
  Nat.le_max_left ..

/-- A fresh setting up to its salt: the marker and the field of the rounds. -/
def lead (s : RoundsSalt) (count : Nat) : Bytes := s.tag ++ s.roundsField (s.rounds count)

/-- Whether a salt of `written` characters goes on in an area of `capacity` bytes. -/
def more (s : RoundsSalt) (count capacity written : Nat) : Bool :=
  (s.lead count).length + written + 5 < capacity && written < s.maxSalt

theorem more_eq_true_iff {count capacity written : Nat} :
    s.more count capacity written = true ↔
      (s.lead count).length + written + 5 < capacity ∧ written < s.maxSalt := by
  rw [more, Bool.and_eq_true, decide_eq_true_eq, decide_eq_true_eq]

/-- The salt ends within the area, if the marker and the rounds do. -/
theorem add_length_salt_lt {count capacity : Nat} (hlead : (s.lead count).length < capacity)
    (random : Bytes) : (s.lead count).length +
      (Field.freshSalt List.reverse (s.more count capacity) 0 random).length < capacity := by
  have hsalt : 0 + (Field.freshSalt List.reverse (s.more count capacity) 0 random).length <
      capacity - (s.lead count).length := by
    refine Field.add_length_freshSalt_lt (fun bs => List.length_reverse) (fun n hn => ?_) random
      (by omega)
    rw [more_eq_true_iff] at hn
    omega
  omega

theorem generate_eq_ok_iff {capacity count : Nat} {random setting : Bytes} :
    s.generate capacity count random = .ok setting ↔
      3 ≤ random.length ∧ s.leastCapacity (s.rounds count) ≤ capacity ∧
        setting.length + 1 ≤ capacity ∧
          s.lead count ++ Field.freshSalt List.reverse (s.more count capacity) 0 random =
            setting := by
  simp only [generate, Checks.unlessInvalid_bind_eq_ok_iff, Checks.need_bind_eq_ok_iff,
    Checks.fit_eq_ok_iff, decide_eq_true_eq]
  rfl

/-- A fresh setting is the marker, the field of the rounds and a salt within its bound. -/
theorem generate_eq_ok {capacity count : Nat} {random setting : Bytes} (hmax : 4 ∣ s.maxSalt)
    (h : s.generate capacity count random = .ok setting) :
    ∃ salt, setting = s.tag ++ s.roundsField (s.rounds count) ++ salt ∧
      (∀ c ∈ salt, Field.isCryptChar c = true) ∧ salt.length ≤ s.maxSalt := by
  obtain ⟨-, -, -, rfl⟩ := generate_eq_ok_iff.1 h
  refine ⟨_, rfl, fun c hc => Field.isCryptChar_of_mem_freshSalt hc, ?_⟩
  -- the second of the two conditions for a further group bounds the salt
  exact Field.length_freshSalt_le (fun bs => List.length_reverse)
    (fun n hn => (more_eq_true_iff.1 hn).2) hmax random

theorem generate_fitting (s : RoundsSalt) (capacity count : Nat) (random : Bytes) :
    Room.Fitting capacity (s.generate capacity count random) :=
  .bind fun _ => .bind fun _ => .fit _

/-- No number exceeds the power of ten after those that lie below it. -/
theorem le_pow_tensBelow (n : Nat) : n ≤ 10 ^ (tensBelow n + 1) := by
  fun_induction tensBelow n with
  | case1 n h => simpa using h
  | case2 n h ih =>
    rw [Nat.pow_succ]
    omega

/-- The room that is asked for is enough for the marker and the rounds. -/
theorem length_lead_lt (s : RoundsSalt) (count : Nat) :
    (s.lead count).length < s.leastCapacity (s.rounds count) := by
  rw [lead, List.length_append, leastCapacity, roundsField]
  generalize s.rounds count = n
  split
  · simp
  · have hname : (Bytes.ascii "rounds=").length = 7 := by decide
    have hpow := le_pow_tensBelow n
    have hdigits : (Bytes.decimal n).length ≤ tensBelow n + 2 := by
      apply Bytes.length_decimal_le (Nat.succ_pos _)
      exact Nat.lt_of_le_of_lt hpow (Nat.pow_lt_pow_right (by decide) (Nat.lt_succ_self _))
    simp only [List.length_append, List.length_singleton, hname]
    omega

/-- There is a fresh setting exactly if there are three random bytes and the room that is asked for:
    the salt stops in time for the setting to fit. -/
theorem exists_generate_eq_ok_iff {capacity count : Nat} {random : Bytes} :
    (∃ setting, s.generate capacity count random = .ok setting) ↔
      3 ≤ random.length ∧ s.leastCapacity (s.rounds count) ≤ capacity := by
  simp only [generate_eq_ok_iff]
  constructor
  · rintro ⟨setting, hrandom, hneed, -⟩
    exact ⟨hrandom, hneed⟩
  · rintro ⟨hrandom, hneed⟩
    have hlead := Nat.lt_of_lt_of_le (s.length_lead_lt count) hneed
    refine ⟨_, hrandom, hneed, ?_, rfl⟩
    rw [List.length_append]
    exact add_length_salt_lt hlead random

/-- Two fresh settings for one cost, of which the second adds whole groups to the salt. -/
def AddsGroups (s : RoundsSalt) (count : Nat) (setting longer : Bytes) : Prop :=
  ∃ kept added : List Bytes, setting = s.lead count ++ kept.flatten ∧
    longer = s.lead count ++ (kept ++ added).flatten ∧ ∀ g ∈ kept ++ added, Field.IsGroup g

/-- With more room there is a fresh setting as well. It adds whole groups to the salt. -/
theorem generate_groups {capacity capacity' count : Nat} {random setting : Bytes}
    (hle : capacity ≤ capacity') (h : s.generate capacity count random = .ok setting) :
    ∃ longer, s.generate capacity' count random = .ok longer ∧
      s.AddsGroups count setting longer := by
  obtain ⟨hrandom, hneed, -, rfl⟩ := generate_eq_ok_iff.1 h
  have horder : ∀ bs : Bytes, bs.reverse.length = bs.length := fun bs => List.length_reverse
  -- a group that the smaller area lets in is let in by the larger one
  have hmore : ∀ n, s.more count capacity n = true → s.more count capacity' n = true := by
    intro n hn
    rw [more_eq_true_iff] at hn ⊢
    omega
  obtain ⟨kept, added, hkept, hall, hgroups⟩ := Field.freshSalt_groups horder hmore 0 random
  -- and the larger one has room for its setting, having room for the smaller one's
  obtain ⟨longer, hlonger⟩ := exists_generate_eq_ok_iff.2 ⟨hrandom, Nat.le_trans hneed hle⟩
  obtain ⟨-, -, -, rfl⟩ := generate_eq_ok_iff.1 hlonger
  exact ⟨_, hlonger, kept, added, by rw [hkept], by rw [hall], hgroups⟩

/-! ## Salting -/

/-- A salt takes every three random bytes that leave one over, up to its bound, and ends a fresh
    setting. With three bytes it is empty. -/
def salting (s : RoundsSalt) : Salting where
  part random := random.take (3 * min (s.maxSalt / 4) ((random.length - 1) / 3))
  write := Field.groups List.reverse
  field := Field.afterLast
  least := 4

theorem dvd_length_part (s : RoundsSalt) (random : Bytes) : 3 ∣ (s.salting.part random).length := by
  show 3 ∣ (random.take _).length
  rw [List.length_take]
  omega

/-- The marker and the rounds end with a separator. -/
theorem exists_lead_eq (htag : [Field.dollar] <:+ s.tag) (count : Nat) :
    ∃ lead, s.lead count = lead ++ [Field.dollar] := by
  obtain ⟨name, hname⟩ := htag
  rw [lead, roundsField]
  split
  · exact ⟨name, by rw [List.append_nil, hname]⟩
  · exact ⟨_, (List.append_assoc ..).symm⟩

/-- In an area that has room for all the salt, fresh settings are salted with it. -/
theorem salting_describes (htag : [Field.dollar] <:+ s.tag) (hmax : 4 ≤ s.maxSalt)
    (hdvd : 4 ∣ s.maxSalt) {capacity : Nat}
    (hroom : ∀ count, (s.lead count).length + s.maxSalt + 5 < capacity) :
    s.salting.Describes (s.generate capacity) where
  field_eq {count random setting} hg := by
    obtain ⟨-, -, -, rfl⟩ := generate_eq_ok_iff.1 hg
    obtain ⟨lead, hlead⟩ := exists_lead_eq htag count
    have hsalt : Field.freshSalt List.reverse (s.more count capacity) 0 random =
        Field.groups List.reverse (s.salting.part random) := by
      apply Field.freshSalt_eq_groups
      intro k _
      have := hroom count
      rw [more, Bool.eq_iff_iff, Bool.and_eq_true, decide_eq_true_eq, decide_eq_true_eq,
        decide_eq_true_eq]
      omega
    have hchars : Field.dollar ∉ Field.groups List.reverse (s.salting.part random) :=
      Field.dollar_notMem fun _ => Field.isCryptChar_of_mem_groups
    rw [hsalt, hlead, List.append_assoc]
    exact Field.afterLast_append lead hchars
  part_eq_nil_iff {count random setting} _ := by
    show random.take _ = [] ↔ random.length < 4
    rw [List.take_eq_nil_iff, ← List.length_eq_zero_iff]
    omega
  part_nil := List.take_nil
  write_nil := rfl
  write_injective h := Field.groups_injective (fun _ => List.length_reverse)
    List.reverse_injective (s.dvd_length_part _) (s.dvd_length_part _) h

/-- With four random bytes a salt has a first group, which is that of the first three. -/
theorem write_part (hmax : 4 ≤ s.maxSalt) {random : Bytes} (hlen : 4 ≤ random.length) :
    ∃ a b c rest more, random = a :: b :: c :: rest ∧
      s.salting.write (s.salting.part random) = Base64.group [c, b, a] ++ more ∧
      4 ∣ more.length := by
  match random, hlen with
  | a :: b :: c :: d :: rest, _ =>
    have hcount : 3 * min (s.maxSalt / 4) (((a :: b :: c :: d :: rest).length - 1) / 3) =
        3 * min (s.maxSalt / 4 - 1) (rest.length / 3) + 3 := by
      simp only [List.length_cons]
      omega
    have hwrite : s.salting.write (s.salting.part (a :: b :: c :: d :: rest)) =
        Base64.group [c, b, a] ++ Field.groups List.reverse
          ((d :: rest).take (3 * min (s.maxSalt / 4 - 1) (rest.length / 3))) := by
      show Field.groups List.reverse (List.take _ _) = _
      rw [hcount]
      rfl
    exact ⟨a, b, c, d :: rest, _, rfl, hwrite, _,
      Field.length_groups (fun _ => List.length_reverse) _⟩

/-- With four random bytes the first three of them are in the salt. -/
theorem take_part (hmax : 4 ≤ s.maxSalt) {random : Bytes} (h : 4 ≤ random.length) :
    (s.salting.part random).take 3 = random.take 3 := by
  show (random.take _).take 3 = _
  rw [List.take_take, Nat.min_eq_left (by omega)]

end RoundsSalt

end PassHash
