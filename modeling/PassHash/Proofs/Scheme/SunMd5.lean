import PassHash.Proofs.Layout
import PassHash.Proofs.Scheme.RoundsSalt
import PassHash.Scheme.SunMd5

/-!
# Settings of Sun MD5

A hash repeats everything that is hashed of its setting, with the separator that closes the salt if
that belongs to it, and puts one more separator ahead of the digest. The digest does not start with
a separator, so the salt is read as closed exactly if it was.

## Main statements

- `SunMd5.parse?_head_append`: a setting is read back from the head of its hashes
- `SunMd5.hash_eq_ok_iff`: when there is a hash, and which
- `SunMd5.hash_demands`, `SunMd5.generate_demands`: more room makes no difference, and too little is
  refused
- `SunMd5.layout`, `SunMd5.layout_describes`: the layout of hashes
- `SunMd5.generate_eq_ok`: what a fresh setting consists of
- `SunMd5.usable_of_generate`: fresh settings are fit for use
- `SunMd5.salting_describes`: how fresh settings are salted
-/

namespace PassHash

namespace SunMd5

variable {room : Room} {phrase setting h : Bytes} {s : Setting}

/-! ## Texts -/

/-- The separator that closes a salt, if it belongs to it. -/
def closing (closed : Bool) : Bytes := if closed then [Field.dollar] else []

theorem Setting.text_eq (s : Setting) :
    s.text =
      tag ++ s.separator :: (Field.roundsText s.rounds? ++ (s.salt ++ closing s.closed)) := by
  rcases s with ⟨separator, - | n, salt, closed⟩ <;>
    simp [Setting.text, Field.roundsText, closing]

/-- The text ahead of a digest. -/
def head (s : Setting) : Bytes := s.text ++ [Field.dollar]

theorem tag_prefix_text (s : Setting) : tag <+: s.text := by
  rw [Setting.text_eq]
  exact List.prefix_append ..

theorem tag_prefix_head (s : Setting) : tag <+: head s :=
  (tag_prefix_text s).trans (List.prefix_append ..)

/-! ## Rounds -/

/-- A text with rounds is read as it is written, one without is left as it is. -/
theorem roundsField?_roundsText_append {rounds? : Option Nat} {rest : Bytes}
    (hrounds : ∀ n ∈ rounds?, 0 < n ∧ n ≤ maxRounds)
    (hrest : rounds? = none → Bytes.after? (Bytes.ascii "rounds=") rest = none) :
    roundsField? (Field.roundsText rounds? ++ rest) = some (rounds?, rest) := by
  cases rounds? with
  | none =>
    rw [Field.roundsText, List.nil_append, roundsField?, hrest rfl]
  | some n =>
    obtain ⟨hpos, hmax⟩ := hrounds n rfl
    have htext : Field.roundsText (some n) ++ rest =
        Bytes.ascii "rounds=" ++ (Bytes.decimal n ++ Field.dollar :: rest) := by
      simp [Field.roundsText]
    have hnumber : Field.number? maxRounds (Bytes.decimal n ++ Field.dollar :: rest) =
        some (n, Field.dollar :: rest) :=
      Field.number?_decimal_append hpos hmax (Bytes.stops_cons.2 (by decide))
    rw [htext, roundsField?, Bytes.after?_append]
    simp [hnumber]

/-- The rounds that are read are within their bounds. -/
theorem bounds_of_roundsField? {rounds? : Option Nat} {s rest : Bytes}
    (h : roundsField? s = some (rounds?, rest)) : ∀ n ∈ rounds?, 0 < n ∧ n ≤ maxRounds := by
  rw [roundsField?] at h
  split at h
  · cases h
    simp
  · simp only [Option.bind_eq_bind, Option.bind_eq_some_iff] at h
    obtain ⟨⟨n, after⟩, hn, h⟩ := h
    obtain ⟨hpos, hmax, -, -⟩ := Field.number?_eq_some_iff.1 hn
    cases after with
    | nil => cases h
    | cons c after =>
      simp only at h
      split at h
      · cases h
        rintro m ⟨⟩
        exact ⟨hpos, hmax⟩
      · cases h

/-! ## Reading -/

/-- What a setting that is read fulfils. -/
structure Setting.Fits (s : Setting) : Prop where
  separator : s.separator = Field.dollar ∨ s.separator = ','.toUInt8
  rounds : ∀ n ∈ s.rounds?, 0 < n ∧ n ≤ maxRounds
  isCryptChar : ∀ c ∈ s.salt, Field.isCryptChar c = true

theorem fits_of_parse? (hs : parse? setting = some s) : s.Fits := by
  simp only [parse?, Option.bind_eq_bind, Option.bind_eq_some_iff] at hs
  obtain ⟨body, -, hs⟩ := hs
  cases body with
  | nil => cases hs
  | cons separator rest =>
    simp only at hs
    split at hs
    · next hsep =>
      simp only [Option.bind_eq_some_iff] at hs
      obtain ⟨⟨rounds?, rest⟩, hrounds, salt, hsalt, hs⟩ := hs
      cases hs
      exact ⟨hsep, bounds_of_roundsField? hrounds, Field.isSalt_of_salt? hsalt⟩
    · cases hs

/-- What is read of a salt and what follows it. -/
theorem parse?_append (hs : s.Fits) {rest : Bytes}
    (hrest : rest = [] ∨ ∃ r, rest = Field.dollar :: r)
    (hclosed : closes rest = s.closed) :
    parse? (tag ++ s.separator :: (Field.roundsText s.rounds? ++ (s.salt ++ rest))) = some s := by
  -- a salt does not pass for rounds, at the end of a setting or ahead of a separator
  have hnone : Bytes.after? (Bytes.ascii "rounds=") (s.salt ++ rest) = none := by
    have hsalt := Field.after?_rounds_eq_none hs.isCryptChar
    rcases hrest with rfl | ⟨r, rfl⟩
    · rwa [List.append_nil]
    · exact Bytes.after?_append_eq_none hsalt (List.prefix_refl s.salt) (by decide) r
  have hsalt : Field.salt? Field.isCryptChar (s.salt ++ rest) = some s.salt := by
    rcases hrest with rfl | ⟨r, rfl⟩
    · rw [List.append_nil, Field.salt?_self hs.isCryptChar]
    · exact Field.salt?_append hs.isCryptChar Field.isCryptChar_dollar r
  rw [parse?, Bytes.after?_append]
  simp only [Option.bind_eq_bind, Option.bind_some, if_pos hs.separator,
    roundsField?_roundsText_append hs.rounds fun _ => hnone, hsalt, List.drop_left, hclosed]
  rfl

/-- A setting is read back from the head of its hashes, ahead of a digest. -/
theorem parse?_head_append (hs : s.Fits) {digest : Bytes} (hne : digest ≠ [])
    (hdigest : ∀ c ∈ digest, Field.isCryptChar c = true) :
    parse? (head s ++ digest) = some s := by
  have htext : head s ++ digest = tag ++ s.separator :: (Field.roundsText s.rounds? ++
      (s.salt ++ (closing s.closed ++ Field.dollar :: digest))) := by
    simp [head, Setting.text_eq]
  -- the salt is closed twice exactly if the first character of the digest is no separator
  obtain ⟨c, digest, rfl⟩ := List.exists_cons_of_ne_nil hne
  have hc : c ≠ Field.dollar := Field.ne_dollar_of_isCryptChar (hdigest c List.mem_cons_self)
  rw [htext]
  refine parse?_append hs (.inr ?_) ?_
  · cases s.closed with
    | false => exact ⟨_, rfl⟩
    | true => exact ⟨_, rfl⟩
  · cases s.closed with
    | false => simpa [closing, closes] using hc
    | true => rfl

/-! ## Hashing -/

theorem hash_eq_ok_iff : hash room phrase setting = .ok h ↔
    ∃ s, parse? setting = some s ∧ s.text.length + 22 + 2 ≤ room.output ∧ 16 ≤ room.scratch ∧
      h.length + 1 ≤ room.output ∧
      head s ++ Base64.scatter Md5Crypt.order (digest s phrase) = h := by
  simp only [hash, Checks.need_bind_eq_ok_iff, Checks.orInvalid_bind_eq_ok_iff,
    Checks.fit_eq_ok_iff]
  rfl

theorem hash_demands (phrase setting : Bytes) :
    Room.Demands fun room => hash room phrase setting :=
  .bind (.const _) fun _ => .bind (.output _) fun _ => .bind (.scratch _) fun _ => .fit _

theorem hasForbidden_head (hs : s.Fits) : Setting.hasForbidden (head s) = false := by
  have htag : Setting.hasForbidden tag = false := by decide
  have hsep : Setting.isForbidden s.separator = false := by
    rcases hs.separator with h | h <;> rw [h] <;> decide
  have hclosing : Setting.hasForbidden (closing s.closed) = false := by
    cases s.closed <;> decide
  simp [head, Setting.text_eq, htag, hsep, hclosing, Field.hasForbidden_roundsText,
    Setting.hasForbidden_of_isCryptChar hs.isCryptChar]

theorem length_digest_text (digest : Bytes) :
    (Base64.scatter Md5Crypt.order digest).length = 22 :=
  Base64.length_scatter Md5Crypt.order digest

/-- How many characters a digest has. -/
def digestLength : Nat := 22

/-- All parts of a setting, and 22 characters of digest. -/
def layout : Layout where
  Reading := Setting
  read? := parse?
  head := head
  isLength n := n == digestLength
  isChar := Field.isCryptChar
  sizing _ _ _ := true
  isLength_zero := rfl
  isForbidden_of_isChar := Field.isForbidden_of_isCryptChar
  reread hs hlen hchars := by
    refine parse?_head_append (fits_of_parse? hs) ?_ hchars
    rintro rfl
    cases hlen
  hasForbidden_head hs _ := hasForbidden_head (fits_of_parse? hs)

theorem layout_describes : layout.Describes hash where
  shape hh := by
    obtain ⟨s, hs, -, -, hfit, rfl⟩ := hash_eq_ok_iff.1 hh
    exact ⟨hfit, s, _, hs, ⟨beq_iff_eq.2 (length_digest_text _),
      fun c hc => Base64.has_of_mem_scatter hc⟩, rfl⟩
  congr hr hr' _ := by
    replace hr : parse? _ = _ := hr
    replace hr' : parse? _ = _ := hr'
    simp only [hash, hr, hr']

/-! ## Fresh settings -/

theorem freshRounds_bounds (count : Nat) (a b : UInt8) :
    0 < freshRounds count a b ∧ freshRounds count a b ≤ maxRounds := by
  have ha := a.toNat_lt
  have hb := b.toNat_lt
  have hmax : maxRounds = 4294967295 := rfl
  unfold freshRounds
  omega

/-- The parts of a fresh setting, which ends with the separator that closes its salt. -/
def fresh (n : Nat) (salt : Bytes) : Setting := ⟨','.toUInt8, some n, salt, true⟩

section Fresh

variable {n : Nat} {salt : Bytes}

theorem text_fresh (n : Nat) (salt : Bytes) : (fresh n salt).text =
    tag ++ Bytes.ascii ",rounds=" ++ Bytes.decimal n ++ [Field.dollar] ++ salt ++
      [Field.dollar] := by
  have hname : Bytes.ascii ",rounds=" = ','.toUInt8 :: Bytes.ascii "rounds=" := by decide
  simp [fresh, Setting.text_eq, Field.roundsText, closing, hname]

theorem fits_fresh (hn : 0 < n ∧ n ≤ maxRounds)
    (hsalt : ∀ c ∈ salt, Field.isCryptChar c = true) : (fresh n salt).Fits where
  separator := .inr rfl
  rounds := by
    rintro m ⟨⟩
    exact hn
  isCryptChar := hsalt

theorem parse?_text_fresh (hfits : (fresh n salt).Fits) :
    parse? (fresh n salt).text = some (fresh n salt) := by
  rw [Setting.text_eq]
  exact parse?_append hfits (.inr ⟨[], rfl⟩) rfl

theorem length_text_fresh_le (hn : n ≤ maxRounds) :
    (fresh n salt).text.length ≤ 24 + salt.length := by
  have hdigits : (Bytes.decimal n).length ≤ 10 :=
    Bytes.length_decimal_le (by decide) (Nat.lt_of_le_of_lt hn (by decide))
  have htag : tag.length = 4 := by decide
  have hname : (Bytes.ascii ",rounds=").length = 8 := by decide
  simp only [text_fresh, List.length_append, List.length_singleton, htag, hname]
  omega

theorem usable_text_fresh (hn : 0 < n ∧ n ≤ maxRounds)
    (hchars : ∀ c ∈ salt, Field.isCryptChar c = true) (hsalt : salt.length ≤ 8) :
    layout.Usable hash ⟨384, Hashing.scratchSize⟩ (fresh n salt).text := by
  have hfits : (fresh n salt).Fits := fits_fresh hn hchars
  have hread := parse?_text_fresh hfits
  have hlen : (fresh n salt).text.length ≤ 24 + salt.length := length_text_fresh_le hn.2
  constructor
  case reads => exact ⟨_, hread, List.prefix_append ..⟩
  case hasForbidden =>
    have hhead := hasForbidden_head hfits
    rw [head, Setting.hasForbidden_append, Bool.or_eq_false_iff] at hhead
    exact hhead.1
  case hashes =>
    intro phrase _
    refine ⟨_, hash_eq_ok_iff.2 ⟨_, hread, ?_, by decide, ?_, rfl⟩⟩
    · show _ ≤ 384
      omega
    · rw [List.length_append, length_digest_text, head, List.length_append,
        List.length_singleton]
      show _ ≤ 384
      omega

end Fresh

/-- A fresh setting takes its rounds from two of the random bytes and its salt from six. -/
theorem generate_eq_ok {capacity count : Nat} {random : Bytes}
    (hg : generate capacity count random = .ok setting) :
    ∃ n salt, setting = (fresh n salt).text ∧ (0 < n ∧ n ≤ maxRounds) ∧
      (∀ c ∈ salt, Field.isCryptChar c = true) ∧ salt.length = 8 := by
  simp only [generate, Checks.need_bind_eq_ok_iff] at hg
  obtain ⟨-, hg⟩ := hg
  match random, hg with
  | a :: b :: c :: d :: e :: f :: g :: h :: _, hg =>
    obtain ⟨-, rfl⟩ := Room.fit_eq_ok_iff.1 hg
    refine ⟨freshRounds count a b, Base64.group [e, d, c] ++ Base64.group [h, g, f], ?_,
      freshRounds_bounds count a b, ?_, ?_⟩
    · rw [text_fresh, List.append_assoc _ (Base64.group [e, d, c]) (Base64.group [h, g, f])]
    · intro x hx
      rcases List.mem_append.1 hx with hx | hx
      · exact Base64.has_of_mem_digits hx
      · exact Base64.has_of_mem_digits hx
    · simp [Base64.length_group, Base64.charsFor]

theorem generate_demands (count : Nat) (random : Bytes) :
    Room.Demands fun room => generate room.output count random := by
  refine .bind (.output _) fun _ => ?_
  -- eight random bytes are used, and fewer are refused
  split
  · exact .fit _
  · exact .const _

theorem generate_fitting (capacity count : Nat) (random : Bytes) :
    Room.Fitting capacity (generate capacity count random) := by
  refine .bind fun _ => ?_
  split
  · exact .fit _
  · exact .error _

theorem usable_of_generate {capacity count : Nat} {random : Bytes}
    (hg : generate capacity count random = .ok setting) :
    layout.Usable hash ⟨384, Hashing.scratchSize⟩ setting ∧ tag <+: setting := by
  obtain ⟨n, salt, rfl, hn, hchars, hlen⟩ := generate_eq_ok hg
  exact ⟨usable_text_fresh hn hchars (Nat.le_of_eq hlen), tag_prefix_text _⟩

/-! ## Salting -/

/-- A salt holds six random bytes after the two that go into the rounds, and stands ahead of the
    last separator of a fresh setting. -/
def salting : Salting where
  part random := (random.drop 2).take 6
  write := Base64.encodeLow
  field setting := Field.afterLast setting.dropLast
  least := 0

theorem salting_describes (capacity : Nat) : salting.Describes (generate capacity) where
  field_eq {count random setting} hg := by
    simp only [generate, Checks.need_bind_eq_ok_iff] at hg
    obtain ⟨-, hg⟩ := hg
    match random, hg with
    | a :: b :: c :: d :: e :: f :: g :: h :: _, hg =>
      obtain ⟨-, rfl⟩ := Room.fit_eq_ok_iff.1 hg
      have hsalt : Base64.group [e, d, c] ++ Base64.group [h, g, f] =
          Base64.encodeLow [c, d, e, f, g, h] := by
        simp [Base64.encodeLow]
      have hchars : Field.dollar ∉ Base64.encodeLow [c, d, e, f, g, h] :=
        Field.dollar_notMem fun _ => Base64.has_of_mem_encodeLow
      show Field.afterLast (List.dropLast (_ ++ [Field.dollar])) = _
      rw [List.dropLast_concat, List.append_assoc _ (Base64.group [e, d, c]), hsalt,
        List.append_assoc]
      exact Field.afterLast_append _ hchars
  part_eq_nil_iff {count random setting} hg := by
    simp only [generate, Checks.need_bind_eq_ok_iff] at hg
    obtain ⟨-, hg⟩ := hg
    match random, hg with
    | _ :: _ :: _ :: _ :: _ :: _ :: _ :: _ :: _, _ =>
      exact iff_of_false (List.cons_ne_nil _ _) (Nat.not_lt_zero _)
  part_nil := rfl
  write_nil := rfl
  write_injective h := Base64.encodeLow_injective h

end SunMd5

end PassHash
