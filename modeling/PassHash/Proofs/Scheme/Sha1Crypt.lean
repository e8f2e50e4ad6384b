import PassHash.Proofs.Layout
import PassHash.Proofs.Scheme.RoundsSalt
import PassHash.Scheme.Sha1Crypt

/-!
# Settings of SHA-1-crypt

A hash repeats the iterations without leading zeros and the whole salt. The number of iterations
fits 64 bits, so it is the one that is read again.

## Main statements

- `Sha1Crypt.parse?_text_append`: a setting is read back from its text
- `Sha1Crypt.hash_eq_ok_iff`: when there is a hash, and which
- `Sha1Crypt.hash_demands`, `Sha1Crypt.generate_demands`: more room makes no difference, and too
  little is refused
- `Sha1Crypt.layout`, `Sha1Crypt.layout_describes`: the layout of hashes
- `Sha1Crypt.generate_eq_ok`: what a fresh setting consists of
- `Sha1Crypt.usable_of_generate`: fresh settings are fit for use
- `Sha1Crypt.salting_describes`: how fresh settings are salted
- `Sha1Crypt.parse?_generate`: what is read from a fresh setting
-/

namespace PassHash

namespace Sha1Crypt

variable {room : Room} {phrase setting h : Bytes} {s : Setting}

/-! ## Reading -/

/-- What a setting that is read fulfils. -/
structure Setting.Fits (s : Setting) : Prop where
  iterations : s.iterations ≤ 0xffffffffffffffff
  isCryptChar : ∀ c ∈ s.salt, Field.isCryptChar c = true
  salt_ne_nil : s.salt ≠ []

theorem fits_of_parse? (hs : parse? setting = some s) : s.Fits := by
  simp only [parse?, Option.bind_eq_bind, Option.bind_eq_some_iff] at hs
  obtain ⟨body, -, hs⟩ := hs
  split at hs
  · cases hs
  · simp only [Option.bind_eq_some_iff] at hs
    obtain ⟨salt, hsalt, hs⟩ := hs
    split at hs
    · next hc =>
      cases hs
      exact ⟨Nat.min_le_right .., Field.isSalt_of_salt? hsalt, hc.2⟩
    · cases hs

/-- A setting is read back from its text, ahead of any digest. -/
theorem parse?_text_append (hs : s.Fits) (rest : Bytes) :
    parse? (s.text ++ rest) = some s := by
  have htext : s.text ++ rest = marker ++ (Bytes.decimal s.iterations ++
      Field.dollar :: (s.salt ++ Field.dollar :: rest)) := by
    simp [Setting.text]
  have hrun : Bytes.digitRun (Bytes.decimal s.iterations ++
      Field.dollar :: (s.salt ++ Field.dollar :: rest)) = Bytes.decimal s.iterations :=
    Bytes.digitRun_append (fun _ => Bytes.isDigit_of_mem_decimal)
      (Bytes.stops_cons.2 (by decide))
  rw [parse?, htext, Bytes.after?_append]
  simp only [Option.bind_eq_bind, Option.bind_some, hrun, List.drop_left,
    Field.salt?_append hs.isCryptChar Field.isCryptChar_dollar, Bytes.decimalValue_decimal]
  rw [if_pos ⟨trivial, hs.salt_ne_nil⟩, Nat.min_eq_left hs.iterations]

theorem parse?_text (hs : s.Fits) : parse? s.text = some s := by
  have hread := parse?_text_append hs []
  rwa [List.append_nil] at hread

theorem tag_prefix_text (s : Setting) : tag <+: s.text := by
  simp only [Setting.text, marker, List.append_assoc]
  exact List.prefix_append ..

/-! ## Hashing -/

theorem hash_eq_ok_iff : hash room phrase setting = .ok h ↔
    outputSize ≤ room.output ∧ 40 ≤ room.scratch ∧ ∃ s, parse? setting = some s ∧
      h.length + 1 ≤ room.output ∧ s.text ++ Base64.scatter order (digest s phrase) = h := by
  simp only [hash, Checks.need_bind_eq_ok_iff, Checks.orInvalid_bind_eq_ok_iff,
    Checks.fit_eq_ok_iff]

theorem hash_demands (phrase setting : Bytes) :
    Room.Demands fun room => hash room phrase setting :=
  .bind (.output _) fun _ => .bind (.scratch _) fun _ => .bind (.const _) fun _ => .fit _

theorem hasForbidden_text (hs : s.Fits) : Setting.hasForbidden s.text = false := by
  have hmarker : Setting.hasForbidden marker = false := by decide
  simp [Setting.text, hmarker, Setting.hasForbidden_decimal,
    Setting.hasForbidden_of_isCryptChar hs.isCryptChar]

theorem length_digest_text (digest : Bytes) : (Base64.scatter order digest).length = 28 :=
  Base64.length_scatter order digest

/-- How many characters a digest has. -/
def digestLength : Nat := 28

/-- Iterations and salt, and 28 characters of digest. -/
def layout : Layout where
  Reading := Setting
  read? := parse?
  head := Setting.text
  isLength n := n == digestLength
  isChar := Field.isCryptChar
  sizing _ _ _ := true
  isLength_zero := rfl
  isForbidden_of_isChar := Field.isForbidden_of_isCryptChar
  reread hs _ _ := parse?_text_append (fits_of_parse? hs) _
  hasForbidden_head hs _ := hasForbidden_text (fits_of_parse? hs)

theorem layout_describes : layout.Describes hash where
  shape hh := by
    obtain ⟨-, -, s, hs, hfit, rfl⟩ := hash_eq_ok_iff.1 hh
    exact ⟨hfit, s, _, hs, ⟨beq_iff_eq.2 (length_digest_text _),
      fun c hc => Base64.has_of_mem_scatter hc⟩, rfl⟩
  congr hr hr' _ := by
    replace hr : parse? _ = _ := hr
    replace hr' : parse? _ = _ := hr'
    simp only [hash, hr, hr']

/-! ## Fresh settings -/

/-- The random part takes less than a quarter off the iterations that are asked for. -/
theorem freshIterations_bounds (count random : Nat) :
    let most := if count = 0 then 262144 else max 4 (min count 0xffffffff)
    most - most / 4 < freshIterations count random ∧ freshIterations count random ≤ most := by
  intro most
  have hmost : 4 ≤ most := by
    show 4 ≤ if count = 0 then 262144 else max 4 (min count 0xffffffff)
    split
    · decide
    · exact Nat.le_max_left ..
  have hlt : random % (most / 4) < most / 4 := Nat.mod_lt _ (by omega)
  show _ < most - random % (most / 4) ∧ most - random % (most / 4) ≤ most
  omega

theorem freshIterations_le (count random : Nat) : freshIterations count random ≤ 0xffffffff := by
  apply Nat.le_trans (Nat.sub_le ..)
  split
  · decide
  · omega

/-- The iterations of a fresh setting take ten digits at most. -/
theorem length_head_le {n : Nat} (hn : n ≤ 0xffffffff) :
    (marker ++ Bytes.decimal n ++ [Field.dollar]).length ≤ 17 := by
  have hdigits : (Bytes.decimal n).length ≤ 10 := Bytes.length_decimal_le (by decide) (by omega)
  have hmarker : marker.length = 6 := by decide
  simp only [List.length_append, List.length_singleton, hmarker]
  omega

/-- A fresh setting is the text of 32-bit iterations and a salt within its bound. -/
theorem generate_eq_ok {capacity count : Nat} {random : Bytes}
    (hg : generate capacity count random = .ok setting) :
    ∃ s : Setting, setting = s.text ∧ s.Fits ∧
      s.iterations = freshIterations count (Base64.bigEndian (random.take 4).reverse) ∧
      s.iterations ≤ 0xffffffff ∧ s.salt.length ≤ maxFreshSalt := by
  simp only [generate, Checks.unlessInvalid_bind_eq_ok_iff, Checks.need_bind_eq_ok_iff,
    Room.fit_eq_ok_iff, decide_eq_true_eq] at hg
  obtain ⟨hrandom, hcapacity, -, rfl⟩ := hg
  have hn := freshIterations_le count (Base64.bigEndian (random.take 4).reverse)
  generalize freshIterations count (Base64.bigEndian (random.take 4).reverse) = n at hn ⊢
  have hhead := length_head_le hn
  refine ⟨⟨n, _⟩, rfl, ⟨?iterations, fun c hc => Field.isCryptChar_of_mem_freshSalt hc, ?nonempty⟩,
    rfl, hn, ?short⟩
  case iterations =>
    show n ≤ _
    omega
  case nonempty =>
    -- there is room for a first group
    refine Field.freshSalt_ne_nil (fun _ => rfl) (decide_eq_true ?_) ?_
    · rw [maxFreshSalt]
      omega
    · rw [List.length_drop]
      omega
  case short =>
    -- no group starts beyond the longest salt
    refine Field.length_freshSalt_le (fun _ => rfl) (fun k hk => ?_) (by decide) _
    replace hk := of_decide_eq_true hk
    omega

theorem length_text_le (hn : s.iterations ≤ 0xffffffff) : s.text.length ≤ 18 + s.salt.length := by
  have hhead := length_head_le hn
  rw [Setting.text, List.length_append, List.length_append, List.length_singleton]
  omega

theorem usable_text (hs : s.Fits) (hn : s.iterations ≤ 0xffffffff)
    (hsalt : s.salt.length ≤ maxFreshSalt) :
    layout.Usable hash ⟨384, Hashing.scratchSize⟩ s.text := by
  have hread := parse?_text hs
  constructor
  case reads => exact ⟨s, hread, List.prefix_rfl⟩
  case hasForbidden => exact hasForbidden_text hs
  case hashes =>
    intro phrase _
    refine ⟨_, hash_eq_ok_iff.2 ⟨by decide, by decide, s, hread, ?_, rfl⟩⟩
    have hlen := length_text_le hn
    rw [List.length_append, length_digest_text]
    rw [maxFreshSalt] at hsalt
    show _ ≤ 384
    omega

/-- The fresh setting for a number of iterations, with a salt that only its length bounds. -/
def freshText (n : Nat) (random : Bytes) : Bytes :=
  let more (written : Nat) : Bool := written + 4 < maxFreshSalt
  marker ++ Bytes.decimal n ++ [Field.dollar] ++ Field.freshSalt id more 0 random ++
    [Field.dollar]

/-- The room that is asked for is enough for all the salt, so that the salt never stops for lack of
    room. -/
theorem generate_eq (capacity count : Nat) (random : Bytes) :
    generate capacity count random = (do
      Failure.unlessInvalid (16 ≤ random.length)
      Room.need capacity ((random.length - 4) * 4 / 3 + 9 + 10)
      Room.fit capacity (freshText
        (freshIterations count (Base64.bigEndian (random.take 4).reverse)) (random.drop 4))) := by
  simp only [generate, freshText]
  have hn := freshIterations_le count (Base64.bigEndian (random.take 4).reverse)
  generalize freshIterations count (Base64.bigEndian (random.take 4).reverse) = n at hn ⊢
  by_cases hroom : (random.length - 4) * 4 / 3 + 9 + 10 ≤ capacity
  · have hhead := length_head_le hn
    rw [Field.freshSalt_congr]
    intro k hk
    rw [List.length_drop] at hk
    rw [decide_eq_decide]
    omega
  · simp only [Room.need, if_neg hroom]
    rfl

theorem generate_demands (count : Nat) (random : Bytes) :
    Room.Demands fun room => generate room.output count random := by
  simp only [generate_eq]
  exact .bind (.const _) fun _ => .bind (.output _) fun _ => .fit _

theorem generate_fitting (capacity count : Nat) (random : Bytes) :
    Room.Fitting capacity (generate capacity count random) :=
  .bind fun _ => .bind fun _ => .fit _

theorem usable_of_generate {capacity count : Nat} {random : Bytes}
    (hg : generate capacity count random = .ok setting) :
    layout.Usable hash ⟨384, Hashing.scratchSize⟩ setting ∧ tag <+: setting := by
  obtain ⟨s, rfl, hs, -, hn, hsalt⟩ := generate_eq_ok hg
  exact ⟨usable_text hs hn hsalt, tag_prefix_text s⟩

/-! ## Salting -/

/-- A salt takes every three random bytes after the first four that leave one over, up to its bound,
    and stands ahead of the last separator of a fresh setting. -/
def salting : Salting where
  part random := (random.drop 4).take (3 * min 15 (((random.drop 4).length - 1) / 3))
  write := Field.groups id
  field setting := Field.afterLast setting.dropLast
  least := 0

theorem dvd_length_part (random : Bytes) : 3 ∣ (salting.part random).length := by
  show 3 ∣ ((random.drop 4).take _).length
  rw [List.length_take]
  omega

theorem salting_describes (capacity : Nat) : salting.Describes (generate capacity) where
  field_eq {count random setting} hg := by
    simp only [generate_eq, Checks.unlessInvalid_bind_eq_ok_iff, Checks.need_bind_eq_ok_iff,
      Checks.fit_eq_ok_iff] at hg
    obtain ⟨-, -, -, rfl⟩ := hg
    have hsalt : Field.freshSalt id (fun written => decide (written + 4 < maxFreshSalt)) 0
        (random.drop 4) = Field.groups id (salting.part random) := by
      apply Field.freshSalt_eq_groups
      intro k _
      rw [decide_eq_decide, maxFreshSalt]
      omega
    have hchars : Field.dollar ∉ Field.groups id (salting.part random) :=
      Field.dollar_notMem fun _ => Field.isCryptChar_of_mem_groups
    show Field.afterLast (List.dropLast (_ ++ [Field.dollar])) = _
    rw [List.dropLast_concat, hsalt, List.append_assoc]
    exact Field.afterLast_append _ hchars
  part_eq_nil_iff {count random setting} hg := by
    simp only [generate_eq, Checks.unlessInvalid_bind_eq_ok_iff, decide_eq_true_eq] at hg
    obtain ⟨hrandom, -⟩ := hg
    show (random.drop 4).take _ = [] ↔ random.length < 0
    rw [List.take_eq_nil_iff, ← List.length_eq_zero_iff, List.length_drop]
    omega
  part_nil := rfl
  write_nil := rfl
  write_injective h := Field.groups_injective (fun _ => rfl) Function.injective_id
    (dvd_length_part _) (dvd_length_part _) h

/-- Iterations and salt are read back from a fresh setting. -/
theorem parse?_generate {capacity count : Nat} {random : Bytes}
    (hg : generate capacity count random = .ok setting) :
    parse? setting = some ⟨freshIterations count (Base64.bigEndian (random.take 4).reverse),
      salting.write (salting.part random)⟩ := by
  have hfield := (salting_describes capacity).field_eq hg
  obtain ⟨s, rfl, hs, hiterations, -, -⟩ := generate_eq_ok hg
  have hsalt : salting.field s.text = s.salt := by
    have hchars : Field.dollar ∉ s.salt := Field.dollar_notMem hs.isCryptChar
    show Field.afterLast (List.dropLast (_ ++ [Field.dollar])) = _
    rw [List.dropLast_concat, List.append_assoc]
    exact Field.afterLast_append _ hchars
  rw [parse?_text hs, ← hiterations, ← hfield, hsalt]

end Sha1Crypt

end PassHash
