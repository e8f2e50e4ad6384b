import PassHash.Proofs.Hashing
import PassHash.Proofs.Scheme.ShaCrypt

/-!
# The Grammar of SHA-crypt Settings

Behind its marker a setting may state its rounds, as `rounds=`, a decimal number without leading
zero and a separator; then comes a salt, which may be empty, and then nothing or a separator with
anything behind it. A text that goes on with `rounds=` must state rounds. The settings of this form
are the ones under which phrases have a hash, and the hash repeats what they state as it is written.

The salt of SM3-crypt ends at characters that no setting may contain, so among settings it is the
separator alone that ends it.

## Contents

- `ShaCrypt.IsRounds`: digits that state rounds
- `ShaCrypt.Grammar`: the texts behind a marker

## Main statements

- `ShaCrypt.parse?_eq_some_iff_grammar`: what is read, and when
- `ShaCrypt.crypt_grammar`: hashing under a setting of the grammar and under any other
-/

namespace PassHash

namespace ShaCrypt

variable {v : Variant} {phrase rest : Bytes} {digits? : Option Bytes} {salt : Bytes}

/-! ## Grammar -/

/-- Digits that state rounds: a decimal number within the bounds, without leading zero. -/
structure IsRounds (digits : Bytes) : Prop where
  isDigit : ∀ c ∈ digits, Bytes.isDigit c = true
  head_ne_zero : digits.head? ≠ some '0'.toUInt8
  le_value : 1000 ≤ Bytes.decimalValue digits
  value_le : Bytes.decimalValue digits ≤ 999999999

/-- The text of stated rounds, which may be missing. -/
def statedRounds : Option Bytes → Bytes
  | none => []
  | some digits => Bytes.ascii "rounds=" ++ digits ++ [Field.dollar]

/-- The characters of a salt: those of the crypt alphabet, for SM3 all but the separator. -/
def Variant.inSalt : Variant → UInt8 → Bool
  | .sm3, c => c != Field.dollar
  | _, c => Field.isCryptChar c

/-- The texts behind a marker: rounds or none, a salt, and nothing or a separator with anything
    behind it. A text that goes on as stated rounds do has to state them. -/
structure Grammar (v : Variant) (rest : Bytes) (digits? : Option Bytes) (salt : Bytes) :
    Prop where
  text : rest = statedRounds digits? ++ salt ∨
    ∃ any, rest = statedRounds digits? ++ salt ++ Field.dollar :: any
  isRounds : ∀ digits ∈ digits?, IsRounds digits
  stated : digits? = none → ¬Bytes.ascii "rounds=" <+: rest
  inSalt : ∀ c ∈ salt, v.inSalt c = true

/-! ## Rounds -/

/-- Rounds are stated by the digits of a number within the bounds. -/
theorem isRounds_iff {digits : Bytes} :
    IsRounds digits ↔ ∃ n, minRounds ≤ n ∧ n ≤ maxRounds ∧ digits = Bytes.decimal n := by
  constructor
  · rintro ⟨hdigit, hhead, hmin, hmax⟩
    refine ⟨Bytes.decimalValue digits, hmin, hmax, ?_⟩
    cases digits with
    | nil => exact absurd hmin (by decide)
    | cons c digits =>
      have hc : c ≠ '0'.toUInt8 := fun h => hhead (congrArg some h)
      exact (Bytes.decimal_decimalValue hdigit hc).symm
  · rintro ⟨n, hmin, hmax, rfl⟩
    have hpos : 0 < n := Nat.lt_of_lt_of_le (by decide) hmin
    constructor
    case isDigit => exact fun c hc => Bytes.isDigit_of_mem_decimal hc
    case head_ne_zero => exact Bytes.head?_decimal_ne_zero hpos
    case le_value => exact (Bytes.decimalValue_decimal n).symm ▸ hmin
    case value_le => exact (Bytes.decimalValue_decimal n).symm ▸ hmax

/-- The rounds of a setting as numbers are those that its digits state. -/
theorem roundsText_map_decimalValue (h : ∀ digits ∈ digits?, IsRounds digits) :
    Field.roundsText (digits?.map Bytes.decimalValue) = statedRounds digits? := by
  cases digits? with
  | none => rfl
  | some digits =>
    obtain ⟨n, -, -, rfl⟩ := isRounds_iff.1 (h _ rfl)
    rw [Option.map_some, Bytes.decimalValue_decimal]
    rfl

/-- What a text goes on with is its stated rounds, or it does not start as they would. -/
theorem roundsField?_eq_some_iff {rounds? : Option Nat} {text after : Bytes} :
    roundsField? text = some (rounds?, after) ↔
      ∃ digits?, rounds? = digits?.map Bytes.decimalValue ∧ text = statedRounds digits? ++ after ∧
        (∀ digits ∈ digits?, IsRounds digits) ∧
        (digits? = none → ¬Bytes.ascii "rounds=" <+: text) := by
  constructor
  · intro h
    obtain ⟨htext, hbounds, hnone⟩ := roundsField?_eq_some h
    refine ⟨rounds?.map Bytes.decimal, ?value, ?text, ?isRounds, ?stated⟩
    case value => cases rounds? <;> simp [Bytes.decimalValue_decimal]
    case text =>
      rw [htext]
      cases rounds? <;> rfl
    case isRounds =>
      intro digits hdigits
      obtain ⟨n, hn, rfl⟩ := Option.map_eq_some_iff.1 hdigits
      exact isRounds_iff.2 ⟨n, (hbounds n hn).1, (hbounds n hn).2, rfl⟩
    case stated =>
      intro hmap
      rw [Option.map_eq_none_iff] at hmap
      subst hmap
      rw [htext]
      exact Bytes.after?_eq_none_iff.1 (hnone rfl)
  · rintro ⟨digits?, rfl, rfl, hrounds, hstated⟩
    -- digits of this form are those that a number is written with
    rw [← roundsText_map_decimalValue hrounds]
    apply roundsField?_roundsText_append
    · intro n hn
      obtain ⟨digits, hdigits, rfl⟩ := Option.map_eq_some_iff.1 hn
      exact ⟨(hrounds digits hdigits).le_value, (hrounds digits hdigits).value_le⟩
    · intro hmap
      rw [Option.map_eq_none_iff] at hmap
      subst hmap
      exact Bytes.after?_eq_none_iff.2 (hstated rfl)

/-! ## Salts -/

theorem Variant.inSalt_dollar (v : Variant) : v.inSalt Field.dollar = false := by
  cases v <;> decide

/-- Among the characters of settings, those of a salt are the same by either account. -/
theorem Variant.isSalt_eq_inSalt (v : Variant) {c : UInt8} (h : Setting.isForbidden c = false) :
    v.isSalt c = v.inSalt c := by
  cases v with
  | sm3 =>
    have hne : ∀ d : UInt8, Setting.isForbidden d = true → (c != d) = true := by
      intro d hd
      rw [bne_iff_ne]
      rintro rfl
      rw [h] at hd
      cases hd
    -- a colon or a line feed would be forbidden
    have hcolon := hne ':'.toUInt8 (by decide)
    have hline := hne '\n'.toUInt8 (by decide)
    show (c != Field.dollar && c != ':'.toUInt8 && c != '\n'.toUInt8) = (c != Field.dollar)
    rw [hcolon, hline, Bool.and_true, Bool.and_true]
  | _ => rfl

/-- A salt in a text of permitted characters is a run that ends with the text or at a separator. -/
theorem salt?_eq_some_iff {text : Bytes} (hclean : Setting.hasForbidden text = false) :
    Field.salt? v.isSalt text = some salt ↔
      (∀ c ∈ salt, v.inSalt c = true) ∧
        (text = salt ∨ ∃ any, text = salt ++ Field.dollar :: any) := by
  have hsame : ∀ c ∈ text, v.isSalt c = v.inSalt c := fun c hc =>
    v.isSalt_eq_inSalt (Setting.hasForbidden_eq_false_iff.1 hclean c hc)
  constructor
  · intro h
    refine ⟨fun c hc => ?_, (Field.salt?_eq_some_iff.1 h).2⟩
    rw [← hsame c ((Field.prefix_of_salt? h).subset hc)]
    exact Field.isSalt_of_salt? h c hc
  · rintro ⟨hsalt, htext⟩
    have hpre : salt <+: text := by
      rcases htext with rfl | ⟨any, rfl⟩
      · exact List.prefix_rfl
      · exact List.prefix_append ..
    have hrun : ∀ c ∈ salt, v.isSalt c = true := fun c hc =>
      (hsame c (hpre.subset hc)).trans (hsalt c hc)
    rcases htext with rfl | ⟨any, rfl⟩
    · exact Field.salt?_self hrun
    · exact Field.salt?_append hrun v.isSalt_dollar any

/-! ## Settings -/

/-- A setting is read exactly if the text behind its marker is of the grammar, and what is read are
    the rounds that it states and the first sixteen characters of its salt. -/
theorem parse?_eq_some_iff_grammar {s : Setting}
    (hclean : Setting.hasForbidden (v.tag ++ rest) = false) :
    parse? v (v.tag ++ rest) = some s ↔
      ∃ digits? salt, Grammar v rest digits? salt ∧
        s = ⟨digits?.map Bytes.decimalValue, salt.take maxSalt⟩ := by
  rw [Setting.hasForbidden_append, Bool.or_eq_false_iff] at hclean
  have hafter : ∀ {front after : Bytes}, rest = front ++ after →
      Setting.hasForbidden after = false := by
    rintro front after rfl
    exact Setting.hasForbidden_of_subset (List.subset_append_right ..) hclean.2
  simp only [parse?, Bytes.after?_append, Option.getD_some, Option.bind_eq_bind,
    Option.bind_eq_some_iff]
  constructor
  · rintro ⟨⟨rounds?, after⟩, hrounds, salt, hsalt, hs⟩
    obtain ⟨digits?, rfl, htext, hdigits, hstated⟩ := roundsField?_eq_some_iff.1 hrounds
    obtain ⟨hin, hends⟩ := (salt?_eq_some_iff (hafter htext)).1 hsalt
    refine ⟨digits?, salt, ⟨?_, hdigits, hstated, hin⟩, (Option.some.inj hs).symm⟩
    rcases hends with rfl | ⟨any, rfl⟩
    · exact .inl htext
    · exact .inr ⟨any, htext.trans (List.append_assoc ..).symm⟩
  · rintro ⟨digits?, salt, hgrammar, rfl⟩
    -- the text behind the rounds is what the salt is read from
    obtain ⟨after, htext, hends⟩ : ∃ after, rest = statedRounds digits? ++ after ∧
        (after = salt ∨ ∃ any, after = salt ++ Field.dollar :: any) := by
      rcases hgrammar.text with htext | ⟨any, htext⟩
      · exact ⟨salt, htext, .inl rfl⟩
      · exact ⟨_, htext.trans (List.append_assoc ..), .inr ⟨any, rfl⟩⟩
    refine ⟨(digits?.map Bytes.decimalValue, after), roundsField?_eq_some_iff.2
      ⟨digits?, rfl, htext, hgrammar.isRounds, hgrammar.stated⟩, salt, ?_, rfl⟩
    exact (salt?_eq_some_iff (hafter htext)).2 ⟨hgrammar.inSalt, hends⟩

/-! ## Hashing -/

/-- There is room for any hash of these schemes. -/
theorem Variant.outputSize_le (v : Variant) : outputSize v ≤ Method.room.output := by
  cases v <;> decide

theorem Variant.digestSize_le (v : Variant) :
    3 * v.function.digestSize ≤ Method.room.scratch := by
  cases v <;> decide

/-- A setting that is not read is refused as invalid. -/
theorem hash_eq_invalid {setting : Bytes} (hs : parse? v setting = none) :
    hash v Method.room phrase setting = .error .invalid := by
  rw [hash, Room.need, Room.need, if_pos v.outputSize_le, if_pos v.digestSize_le, hs]
  rfl

/-- The hash under a setting of the grammar. -/
theorem hash_of_grammar (hclean : Setting.hasForbidden (v.tag ++ rest) = false)
    (hg : Grammar v rest digits? salt) (phrase : Bytes) :
    ∃ digest : Bytes, digest.length = v.digestLength ∧
      (∀ c ∈ digest, Field.isCryptChar c = true) ∧
      hash v Method.room phrase (v.tag ++ rest) =
        .ok (v.tag ++ statedRounds digits? ++ salt.take maxSalt ++ [Field.dollar] ++ digest) := by
  have hs : parse? v (v.tag ++ rest) = some ⟨digits?.map Bytes.decimalValue, salt.take maxSalt⟩ :=
    (parse?_eq_some_iff_grammar hclean).2 ⟨digits?, salt, hg, rfl⟩
  -- there is a hash, and any hash is what the setting says, written out, with a digest
  obtain ⟨h, hh⟩ := exists_hash hs phrase
  obtain ⟨-, -, s, hs', -, rfl⟩ := hash_eq_ok_iff.1 hh
  rw [hs, Option.some.injEq] at hs'
  subst hs'
  rw [Setting.text_eq, roundsText_map_decimalValue hg.isRounds] at hh
  exact ⟨_, v.length_scatter_order _, fun c hc => Base64.has_of_mem_scatter hc, hh⟩

/-- A phrase that is not too long is hashed under a setting with a marker by its scheme. -/
theorem crypt_tag_append (ws : Workspace) (hphrase : phrase.length < 512)
    (hclean : Setting.hasForbidden (v.tag ++ rest) = false) :
    (ws.crypt phrase (v.tag ++ rest)).1 =
      hash v Method.room phrase.beforeNul (v.tag ++ rest) := by
  have hle : phrase.beforeNul.length ≤ Hashing.maxPhrase :=
    Nat.le_trans (List.takeWhile_prefix _).length_le (Nat.le_of_lt_succ hphrase)
  have hselects : Method.ofSetting? (v.tag ++ rest) = some (.shaCrypt v) :=
    Method.ofSetting?_tag_append (m := .shaCrypt v) nofun rest
  rw [Workspace.crypt_fst, Setting.beforeNul_of_hasForbidden hclean,
    Hashing.text_eq_hash hle hclean hselects]
  rfl

/-- A phrase that is not too long has a hash under a setting exactly if the text behind the marker
    is of the grammar, and otherwise the setting is refused as invalid. The hash is the marker, the
    rounds as they are stated, at most sixteen characters of the salt, a separator and the digest.
    That the number of rounds is refused at the first digit that makes it too large changes
    nothing. -/
theorem crypt_grammar (ws : Workspace) (hphrase : phrase.length < 512)
    (hclean : Setting.hasForbidden (v.tag ++ rest) = false) :
    (∀ text, Field.scan? maxRounds text = Field.number? maxRounds text) ∧
    ((∃ h, (ws.crypt phrase (v.tag ++ rest)).1 = .ok h) ↔
      ∃ digits? salt, Grammar v rest digits? salt) ∧
    ((¬∃ digits? salt, Grammar v rest digits? salt) →
      (ws.crypt phrase (v.tag ++ rest)).1 = .error .invalid) ∧
    ∀ digits? salt, Grammar v rest digits? salt →
      ∃ digest : Bytes, digest.length = (if v = .sha512 then 86 else 43) ∧
        (∀ c ∈ digest, Field.isCryptChar c = true) ∧
        (ws.crypt phrase (v.tag ++ rest)).1 =
          .ok (v.tag ++ statedRounds digits? ++ salt.take 16 ++ [Field.dollar] ++ digest) := by
  have hlength : v.digestLength = if v = .sha512 then 86 else 43 := by cases v <;> rfl
  have hrefused : (¬∃ digits? salt, Grammar v rest digits? salt) →
      (ws.crypt phrase (v.tag ++ rest)).1 = .error .invalid := by
    intro hnone
    rw [crypt_tag_append ws hphrase hclean]
    apply hash_eq_invalid
    rw [Option.eq_none_iff_forall_ne_some]
    intro s hs
    obtain ⟨digits?, salt, hg, -⟩ := (parse?_eq_some_iff_grammar hclean).1 hs
    exact hnone ⟨digits?, salt, hg⟩
  have hhashed : ∀ digits? salt, Grammar v rest digits? salt →
      ∃ digest : Bytes, digest.length = (if v = .sha512 then 86 else 43) ∧
        (∀ c ∈ digest, Field.isCryptChar c = true) ∧
        (ws.crypt phrase (v.tag ++ rest)).1 =
          .ok (v.tag ++ statedRounds digits? ++ salt.take 16 ++ [Field.dollar] ++ digest) := by
    intro digits? salt hg
    rw [← hlength, crypt_tag_append ws hphrase hclean]
    exact hash_of_grammar hclean hg phrase.beforeNul
  refine ⟨Field.scan?_eq (by decide), ⟨?_, ?_⟩, hrefused, hhashed⟩
  · rintro ⟨h, hh⟩
    by_contra hnone
    rw [hrefused hnone] at hh
    cases hh
  · rintro ⟨digits?, salt, hg⟩
    obtain ⟨digest, -, -, hh⟩ := hhashed digits? salt hg
    exact ⟨_, hh⟩

/-- With SM3-crypt a salt behind stated rounds may look like rounds itself. Too few rounds are
    refused. -/
theorem crypt_grammar_rounds :
    (∃ digest : Bytes, digest.length = 43 ∧ (∀ c ∈ digest, Field.isCryptChar c = true) ∧
      (Workspace.zero.crypt (Bytes.ascii "x") (Bytes.ascii "$sm3$rounds=1000$rounds=9$old")).1 =
        .ok (Bytes.ascii "$sm3$rounds=1000$rounds=9$" ++ digest)) ∧
    (Workspace.zero.crypt (Bytes.ascii "x") (Bytes.ascii "$5$rounds=999$salt")).1 =
      .error .invalid := by
  constructor
  · have hgrammar : Grammar .sm3 (Bytes.ascii "rounds=1000$rounds=9$old")
        (some (Bytes.ascii "1000")) (Bytes.ascii "rounds=9") := by
      refine ⟨.inr ⟨Bytes.ascii "old", by decide⟩, ?_, nofun, by decide +kernel⟩
      rintro digits ⟨⟩
      exact ⟨by decide +kernel, by decide, by decide, by decide⟩
    obtain ⟨-, -, -, hhashed⟩ := @crypt_grammar .sm3 (Bytes.ascii "x")
      (Bytes.ascii "rounds=1000$rounds=9$old") Workspace.zero (by decide) (by decide)
    obtain ⟨digest, hlength, hchars, hh⟩ := hhashed _ _ hgrammar
    exact ⟨digest, hlength, hchars, hh⟩
  · have hclean : Setting.hasForbidden (Variant.sha256.tag ++ Bytes.ascii "rounds=999$salt") =
        false := by
      decide
    obtain ⟨-, -, hrefused, -⟩ := @crypt_grammar .sha256 (Bytes.ascii "x")
      (Bytes.ascii "rounds=999$salt") Workspace.zero (by decide) hclean
    apply hrefused
    rintro ⟨digits?, salt, hg⟩
    have hread := (parse?_eq_some_iff_grammar hclean).2 ⟨digits?, salt, hg, rfl⟩
    have hnone : parse? .sha256 (Variant.sha256.tag ++ Bytes.ascii "rounds=999$salt") = none := by
      decide +kernel
    rw [hnone] at hread
    cases hread

end ShaCrypt

end PassHash
