import PassHash.Proofs.Layout
import PassHash.Proofs.Scheme.RoundsSalt
import PassHash.Scheme.ShaCrypt

/-!
# Settings of SHA-crypt and SM3-crypt

A hash repeats the marker, the rounds if they are stated, and the salt of its setting, cut to
sixteen characters. The salt does not start as a field of rounds would, so the text reads as a
setting with the same parts.

## Main statements

- `ShaCrypt.parse?_text_append`: a setting is read back from its text
- `ShaCrypt.hash_eq_ok_iff`: when there is a hash, and which
- `ShaCrypt.hash_demands`: more room makes no difference, and too little is refused
- `ShaCrypt.layout`, `ShaCrypt.layout_describes`: the layout of hashes
- `ShaCrypt.generate_eq_ok`: what a fresh setting consists of
- `ShaCrypt.usable_of_generate`: fresh settings are fit for use
- `ShaCrypt.salting_describes`: how fresh settings are salted
- `ShaCrypt.parse?_generate`, `ShaCrypt.rounds_prefix_drop_iff`: what is read from a fresh setting,
  and when it states its rounds
-/

namespace PassHash

namespace ShaCrypt

variable {v : Variant} {room : Room} {phrase setting h : Bytes} {s : Setting}

/-! ## Variants -/

theorem Variant.isSalt_of_isCryptChar (v : Variant) {c : UInt8}
    (h : Field.isCryptChar c = true) : v.isSalt c = true := by
  cases v with
  | sm3 => exact Field.isEntryChar_of_isCryptChar h
  | _ => exact h

theorem Variant.isSalt_dollar (v : Variant) : v.isSalt Field.dollar = false := by
  cases v with
  | sm3 => exact Field.isEntryChar_dollar
  | _ => exact Field.isCryptChar_dollar

theorem Variant.length_scatter_order (v : Variant) (digest : Bytes) :
    (Base64.scatter v.order digest).length = v.digestLength := by
  rw [Base64.length_scatter]
  cases v <;> decide

theorem Variant.hasForbidden_tag (v : Variant) : Setting.hasForbidden v.tag = false := by
  cases v <;> decide

theorem Variant.length_tag_le (v : Variant) : v.tag.length ≤ 5 := by
  cases v <;> decide

/-! ## Texts -/

theorem Setting.text_eq (v : Variant) (s : Setting) :
    s.text v = v.tag ++ Field.roundsText s.rounds? ++ s.salt ++ [Field.dollar] := by
  rcases s with ⟨- | n, salt⟩ <;> rfl

theorem tag_prefix_text (v : Variant) (s : Setting) : v.tag <+: s.text v := by
  rw [Setting.text_eq, List.append_assoc, List.append_assoc]
  exact List.prefix_append ..

/-! ## Rounds -/

/-- A text with rounds is read as it is written, one without is left as it is. -/
theorem roundsField?_roundsText_append {rounds? : Option Nat} {rest : Bytes}
    (hrounds : ∀ n ∈ rounds?, minRounds ≤ n ∧ n ≤ maxRounds)
    (hrest : rounds? = none → Bytes.after? (Bytes.ascii "rounds=") rest = none) :
    roundsField? (Field.roundsText rounds? ++ rest) = some (rounds?, rest) := by
  cases rounds? with
  | none =>
    rw [Field.roundsText, List.nil_append, roundsField?, hrest rfl]
  | some n =>
    obtain ⟨hmin, hmax⟩ := hrounds n rfl
    have hpos : 0 < n := Nat.lt_of_lt_of_le (by decide) hmin
    have htext : Field.roundsText (some n) ++ rest =
        Bytes.ascii "rounds=" ++ (Bytes.decimal n ++ Field.dollar :: rest) := by
      simp [Field.roundsText]
    have hnumber : Field.number? maxRounds (Bytes.decimal n ++ Field.dollar :: rest) =
        some (n, Field.dollar :: rest) :=
      Field.number?_decimal_append hpos hmax (Bytes.stops_cons.2 (by decide))
    rw [htext, roundsField?, Bytes.after?_append]
    simp [hnumber, hmin]

/-- What is read of a text's rounds. -/
theorem roundsField?_eq_some {rounds? : Option Nat} {s rest : Bytes}
    (h : roundsField? s = some (rounds?, rest)) :
    s = Field.roundsText rounds? ++ rest ∧ (∀ n ∈ rounds?, minRounds ≤ n ∧ n ≤ maxRounds) ∧
      (rounds? = none → Bytes.after? (Bytes.ascii "rounds=") rest = none) := by
  rw [roundsField?] at h
  split at h
  · next hnone =>
    cases h
    exact ⟨rfl, by simp, fun _ => hnone⟩
  · next number hnumber =>
    simp only [Option.bind_eq_bind, Option.bind_eq_some_iff] at h
    obtain ⟨⟨n, after⟩, hn, h⟩ := h
    obtain ⟨-, hmax, rfl, -⟩ := Field.number?_eq_some_iff.1 hn
    cases after with
    | nil => cases h
    | cons c after =>
      simp only at h
      split at h
      · next hc =>
        -- stated rounds are followed by a separator, and are not too few
        obtain ⟨rfl, hmin⟩ := hc
        cases h
        refine ⟨?_, ?_, ?_⟩
        · rw [Bytes.after?_eq_some_iff.1 hnumber]
          simp [Field.roundsText]
        · rintro m ⟨⟩
          exact ⟨hmin, hmax⟩
        · rintro ⟨⟩
      · cases h

/-! ## Reading -/

/-- What a setting that is read fulfils: the rounds lie in their bounds, and the salt, which does
    not start as they would, is short and holds salt characters only. -/
structure Setting.Fits (v : Variant) (s : Setting) : Prop where
  rounds : ∀ n ∈ s.rounds?, minRounds ≤ n ∧ n ≤ maxRounds
  isSalt : ∀ c ∈ s.salt, v.isSalt c = true
  length_salt : s.salt.length ≤ maxSalt
  not_rounds : s.rounds? = none →
    ∀ rest, Bytes.after? (Bytes.ascii "rounds=") (s.salt ++ Field.dollar :: rest) = none

theorem fits_of_parse? (hs : parse? v setting = some s) : s.Fits v := by
  simp only [parse?, Option.bind_eq_bind, Option.bind_eq_some_iff] at hs
  obtain ⟨⟨rounds?, rest⟩, hrounds, salt, hsalt, hs⟩ := hs
  cases hs
  obtain ⟨-, hbounds, hrest⟩ := roundsField?_eq_some hrounds
  -- a salt that is cut must not start like rounds once it is closed with a separator
  refine ⟨hbounds, fun c hc => Field.isSalt_of_salt? hsalt c (List.mem_of_mem_take hc), ?_,
    fun hnone => Bytes.after?_append_eq_none (hrest hnone) ?_ (by decide)⟩
  · rw [List.length_take]
    exact Nat.min_le_left ..
  · exact (List.take_prefix ..).trans (Field.prefix_of_salt? hsalt)

theorem subset_of_parse? (hs : parse? v setting = some s) : s.salt ⊆ setting := by
  simp only [parse?, Option.bind_eq_bind, Option.bind_eq_some_iff] at hs
  obtain ⟨⟨rounds?, rest⟩, hrounds, salt, hsalt, hs⟩ := hs
  cases hs
  obtain ⟨htext, -, -⟩ := roundsField?_eq_some hrounds
  have hrest : rest ⊆ setting := by
    refine List.Subset.trans ?_ (Bytes.after?_getD_suffix v.tag setting).subset
    rw [htext]
    exact List.subset_append_right ..
  have hpre := (List.take_prefix maxSalt salt).trans (Field.prefix_of_salt? hsalt)
  exact List.Subset.trans hpre.subset hrest

/-- A setting is read back from its text, ahead of any digest. -/
theorem parse?_text_append (hs : s.Fits v) (rest : Bytes) :
    parse? v (s.text v ++ rest) = some s := by
  have htext : s.text v ++ rest =
      v.tag ++ (Field.roundsText s.rounds? ++ (s.salt ++ Field.dollar :: rest)) := by
    simp [Setting.text_eq]
  rw [parse?, htext, Bytes.after?_append, Option.getD_some,
    roundsField?_roundsText_append hs.rounds fun hnone => hs.not_rounds hnone rest]
  show (Field.salt? v.isSalt (s.salt ++ Field.dollar :: rest)).bind _ = some s
  rw [Field.salt?_append hs.isSalt v.isSalt_dollar, Option.bind_some,
    List.take_of_length_le hs.length_salt]
  rfl

/-! ## Hashing -/

theorem hash_eq_ok_iff : hash v room phrase setting = .ok h ↔
    outputSize v ≤ room.output ∧ 3 * v.function.digestSize ≤ room.scratch ∧
      ∃ s, parse? v setting = some s ∧ h.length + 1 ≤ room.output ∧
        s.text v ++ Base64.scatter v.order (digest v.function phrase s.salt s.rounds) = h := by
  simp only [hash, Checks.need_bind_eq_ok_iff, Checks.orInvalid_bind_eq_ok_iff,
    Checks.fit_eq_ok_iff]

theorem hash_demands (v : Variant) (phrase setting : Bytes) :
    Room.Demands fun room => hash v room phrase setting :=
  .bind (.output _) fun _ => .bind (.scratch _) fun _ => .bind (.const _) fun _ => .fit _

/-- Rounds and salt, and as many characters of digest as the hash function makes. -/
def layout (v : Variant) : Layout where
  Reading := Setting
  read? := parse? v
  head := Setting.text v
  isLength n := n == v.digestLength
  isChar := Field.isCryptChar
  sizing _ _ _ := true
  isLength_zero := by cases v <;> rfl
  isForbidden_of_isChar := Field.isForbidden_of_isCryptChar
  reread hs _ _ := parse?_text_append (fits_of_parse? hs) _
  hasForbidden_head hs hf := by
    have hsalt := Setting.hasForbidden_of_subset (subset_of_parse? hs) hf
    simp [Setting.text_eq, v.hasForbidden_tag, Field.hasForbidden_roundsText, hsalt]

theorem layout_describes (v : Variant) : (layout v).Describes (hash v) where
  shape hh := by
    obtain ⟨-, -, s, hs, hfit, rfl⟩ := hash_eq_ok_iff.1 hh
    exact ⟨hfit, s, _, hs, ⟨beq_iff_eq.2 (v.length_scatter_order _),
      fun c hc => Base64.has_of_mem_scatter hc⟩, rfl⟩
  congr hr hr' _ := by
    replace hr : parse? v _ = _ := hr
    replace hr' : parse? v _ = _ := hr'
    simp only [hash, hr, hr']

/-! ## Fresh settings -/

/-- A fresh setting states its rounds unless they are the default. -/
def freshRounds (n : Nat) : Option Nat := if n = defaultRounds then none else some n

/-- The rounds are the same whether they are stated or not. -/
theorem rounds_freshRounds (n : Nat) (salt : Bytes) : Setting.rounds ⟨freshRounds n, salt⟩ = n := by
  unfold Setting.rounds freshRounds
  split
  · next hn => rw [hn, Option.getD_none]
  · rfl

theorem roundsField_eq (v : Variant) (n : Nat) :
    (fresh v).roundsField n = Field.roundsText (freshRounds n) := by
  by_cases hn : n = defaultRounds <;>
    simp [RoundsSalt.roundsField, fresh, freshRounds, hn, Field.roundsText]

theorem length_text_le (hs : s.Fits v) : (s.text v).length ≤ 39 := by
  have hrounds := Field.length_roundsText_le (k := 9) (by decide) fun n hn =>
    Nat.lt_of_le_of_lt (hs.rounds n hn).2 (by decide)
  have htag := v.length_tag_le
  have hsalt : s.salt.length ≤ 16 := hs.length_salt
  simp only [Setting.text_eq, List.length_append, List.length_singleton]
  omega

theorem freshRounds_bounds {n : Nat} (hmin : minRounds ≤ n) (hmax : n ≤ maxRounds) :
    ∀ m ∈ freshRounds n, minRounds ≤ m ∧ m ≤ maxRounds := by
  intro m hm
  rw [freshRounds] at hm
  split at hm
  · cases hm
  · cases hm
    exact ⟨hmin, hmax⟩

/-- A fresh setting is the marker, the rounds that it states and a salt within its bound. -/
theorem generate_eq_ok {capacity count : Nat} {random : Bytes}
    (hg : generate v capacity count random = .ok setting) :
    ∃ s : Setting, setting = v.tag ++ Field.roundsText s.rounds? ++ s.salt ∧
      s.rounds? = freshRounds ((fresh v).rounds count) ∧
      (∀ n ∈ s.rounds?, minRounds ≤ n ∧ n ≤ maxRounds) ∧
      (∀ c ∈ s.salt, Field.isCryptChar c = true) ∧ s.salt.length ≤ maxSalt := by
  obtain ⟨salt, rfl, hsalt, hlen⟩ := RoundsSalt.generate_eq_ok (by decide : 4 ∣ maxSalt) hg
  have hmin : minRounds ≤ (fresh v).rounds count := (fresh v).minRounds_le count
  have hmax : (fresh v).rounds count ≤ maxRounds :=
    RoundsSalt.rounds_le (by decide : minRounds ≤ maxRounds) count
  refine ⟨⟨freshRounds ((fresh v).rounds count), salt⟩, ?_, rfl, freshRounds_bounds hmin hmax, hsalt,
    hlen⟩
  rw [roundsField_eq]
  rfl

/-- A setting may end with its salt, without the separator. -/
theorem parse?_unclosed (hrounds : ∀ n ∈ s.rounds?, minRounds ≤ n ∧ n ≤ maxRounds)
    (hsalt : ∀ c ∈ s.salt, Field.isCryptChar c = true) (hlen : s.salt.length ≤ maxSalt) :
    parse? v (v.tag ++ Field.roundsText s.rounds? ++ s.salt) = some s := by
  rw [parse?, List.append_assoc, Bytes.after?_append, Option.getD_some,
    roundsField?_roundsText_append hrounds fun _ => Field.after?_rounds_eq_none hsalt]
  show (Field.salt? v.isSalt s.salt).bind _ = _
  rw [Field.salt?_self fun c hc => v.isSalt_of_isCryptChar (hsalt c hc), Option.bind_some,
    List.take_of_length_le hlen]
  rfl

/-- Whatever is read from a setting, a phrase has a hash under it. -/
theorem exists_hash (hs : parse? v setting = some s) (phrase : Bytes) :
    ∃ h, hash v ⟨384, Hashing.scratchSize⟩ phrase setting = .ok h := by
  have hroom : outputSize v ≤ 384 ∧ 3 * v.function.digestSize ≤ 8192 := by cases v <;> decide
  refine ⟨_, hash_eq_ok_iff.2 ⟨hroom.1, hroom.2, s, hs, ?_, rfl⟩⟩
  have htext := length_text_le (fits_of_parse? hs)
  have hdigest : v.digestLength ≤ 86 := by cases v <;> decide
  rw [List.length_append, v.length_scatter_order]
  show _ ≤ 384
  omega

theorem usable_of_generate {capacity count : Nat} {random : Bytes}
    (hg : generate v capacity count random = .ok setting) :
    (layout v).Usable (hash v) ⟨384, Hashing.scratchSize⟩ setting ∧ v.tag <+: setting := by
  obtain ⟨s, rfl, -, hrounds, hsalt, hlen⟩ := generate_eq_ok hg
  have hread : parse? v (v.tag ++ Field.roundsText s.rounds? ++ s.salt) = some s :=
    parse?_unclosed hrounds hsalt hlen
  have hpre : v.tag <+: v.tag ++ Field.roundsText s.rounds? ++ s.salt := by
    rw [List.append_assoc]
    exact List.prefix_append ..
  refine ⟨?_, hpre⟩
  constructor
  case reads =>
    refine ⟨s, hread, ?_⟩
    show _ <+: s.text v
    rw [Setting.text_eq]
    exact List.prefix_append ..
  case hasForbidden =>
    simp [v.hasForbidden_tag, Field.hasForbidden_roundsText,
      Setting.hasForbidden_of_isCryptChar hsalt]
  case hashes =>
    intro phrase _
    exact exists_hash hread phrase

/-! ## Salting -/

theorem Variant.dollar_suffix_tag (v : Variant) : [Field.dollar] <:+ (fresh v).tag := by
  cases v <;> decide

theorem length_lead_le (v : Variant) (count : Nat) : ((fresh v).lead count).length ≤ 22 := by
  have htag := v.length_tag_le
  have hmax : (fresh v).rounds count ≤ maxRounds :=
    RoundsSalt.rounds_le (by decide : minRounds ≤ maxRounds) count
  have hbounds := freshRounds_bounds ((fresh v).minRounds_le count) hmax
  have hrounds := Field.length_roundsText_le (k := 9) (by decide) fun n hn =>
    Nat.lt_of_le_of_lt (hbounds n hn).2 (by decide)
  have hlead : (fresh v).lead count =
      v.tag ++ Field.roundsText (freshRounds ((fresh v).rounds count)) := by
    rw [← roundsField_eq v]
    rfl
  rw [hlead, List.length_append]
  omega

theorem salting_describes (v : Variant) {capacity : Nat} (hcapacity : 64 ≤ capacity) :
    (fresh v).salting.Describes (generate v capacity) := by
  refine RoundsSalt.salting_describes v.dollar_suffix_tag (by decide : 4 ≤ maxSalt) (by decide : 4 ∣ maxSalt)
    fun count => ?_
  have hlead := length_lead_le v count
  have hmax : (fresh v).maxSalt = 16 := rfl
  omega

/-- Rounds and salt are read back from a fresh setting. -/
theorem parse?_generate {capacity count : Nat} {random : Bytes} (hcapacity : 64 ≤ capacity)
    (hg : generate v capacity count random = .ok setting) :
    parse? v setting = some ⟨freshRounds ((fresh v).rounds count),
      (fresh v).salting.write ((fresh v).salting.part random)⟩ := by
  have hfield := (salting_describes v hcapacity).field_eq hg
  obtain ⟨s, rfl, hfresh, hrounds, hsalt, hlen⟩ := generate_eq_ok hg
  have hwritten : (fresh v).salting.field (v.tag ++ Field.roundsText s.rounds? ++ s.salt) =
      s.salt := by
    have hlead : v.tag ++ Field.roundsText s.rounds? = (fresh v).lead count := by
      rw [hfresh, ← roundsField_eq v]
      rfl
    obtain ⟨lead, hends⟩ := RoundsSalt.exists_lead_eq v.dollar_suffix_tag count
    rw [hlead, hends, List.append_assoc]
    exact Field.afterLast_append lead (Field.dollar_notMem hsalt)
  rw [parse?_unclosed hrounds hsalt hlen, ← hfresh, ← hfield, hwritten]

/-- The rounds stand in a fresh setting exactly if they are not the default. -/
theorem rounds_prefix_drop_iff {capacity count : Nat} {random : Bytes}
    (hg : generate v capacity count random = .ok setting) :
    Bytes.ascii "rounds=" <+: setting.drop v.tag.length ↔
      (fresh v).rounds count ≠ defaultRounds := by
  obtain ⟨s, rfl, hfresh, -, hsalt, -⟩ := generate_eq_ok hg
  rw [hfresh, freshRounds, List.append_assoc, List.drop_left]
  by_cases hn : (fresh v).rounds count = defaultRounds
  case pos =>
    rw [if_pos hn]
    refine iff_of_false ?_ (not_not_intro hn)
    rintro ⟨rest, hrest⟩
    -- only the salt is left, and its characters do not spell the field
    have hnone := Field.after?_rounds_eq_none hsalt
    replace hrest : Bytes.ascii "rounds=" ++ rest = s.salt := hrest
    rw [← hrest, Bytes.after?_append] at hnone
    cases hnone
  case neg =>
    rw [if_neg hn, Field.roundsText, List.append_assoc, List.append_assoc]
    exact iff_of_true (List.prefix_append ..) hn

end ShaCrypt

end PassHash
