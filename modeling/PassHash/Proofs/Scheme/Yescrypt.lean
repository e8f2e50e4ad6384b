import PassHash.Proofs.Base64.VarLength
import PassHash.Proofs.Kdf.Yescrypt.Basic
import PassHash.Proofs.Layout
import PassHash.Proofs.Salting
import PassHash.Scheme.Yescrypt

/-!
# Settings of Yescrypt

Every number among the parameters is read from its own characters, and the salt goes up to the last
separator. So what a setting says is in the text up to that separator, and a digest after it changes
nothing. The tagged variants read the same text under markers of their own, and cover no more of the
setting than that text with its separator.

## Main statements

- `YescryptHash.params?_eq_some`: the characters that parameters are read from
- `YescryptHash.spells_of_parse?`: the text that says everything of a setting
- `YescryptHash.hash_eq_ok_iff`, `YescryptHash.Keyed.hash_eq_ok_iff`: when there is a hash, and
  which
- `YescryptHash.hash_demands`, `YescryptHash.Keyed.hash_demands`: more room makes no difference,
  and too little is refused
- `YescryptHash.layout`, `YescryptHash.layout_describes`, `YescryptHash.Keyed.layout_describes`: the
  layout of hashes
- `YescryptHash.Keyed.usable_of_generate`: fresh settings of the SM3 variant are fit for use
- `YescryptHash.salting_describes`, `YescryptHash.Keyed.salting_describes`: how fresh settings are
  salted
-/

namespace PassHash

namespace YescryptHash

open Base64 Yescrypt

variable {room : Room} {phrase setting h : Bytes} {s : Setting}

/-! ## Fields -/

/-- Whether a text is part of the parameters: its characters are of the alphabet, and there are at
    most `bound` of them. -/
structure Part (bound : Nat) (body : Bytes) : Prop where
  length_le : body.length ≤ bound
  isCryptChar : ∀ c ∈ body, Field.isCryptChar c = true

theorem Part.append {m n : Nat} {body body' : Bytes} (h : Part m body) (h' : Part n body') :
    Part (m + n) (body ++ body') where
  length_le := by
    rw [List.length_append]
    exact Nat.add_le_add h.length_le h'.length_le
  isCryptChar := by
    intro c hc
    rcases List.mem_append.1 hc with hc | hc
    · exact h.isCryptChar c hc
    · exact h'.isCryptChar c hc

/-- Whether a part of the parameters stands for a value: it is read ahead of anything. -/
structure Reads {α : Type} (read : Bytes → Option (α × Bytes)) (bound : Nat) (a : α)
    (body : Bytes) : Prop extends Part bound body where
  read_append : ∀ rest, read (body ++ rest) = some (a, rest)

theorem field?_eq_some {least v : Nat} {t rest : Bytes} (hf : field? least t = some (v, rest)) :
    ∃ body, t = body ++ rest ∧ body ≠ [] ∧ Reads (field? least) 6 v body := by
  obtain ⟨⟨w, n⟩, hread, he⟩ := Option.map_eq_some_iff.1 hf
  cases he
  -- the number says how many characters it takes, so nothing after them is looked at
  obtain ⟨body, tail, rfl, rfl, hne, hlen, hchars, hany⟩ := readNumber?_eq_some hread
  refine ⟨body, by rw [List.drop_left], hne, ⟨hlen, hchars⟩, fun rest => ?_⟩
  rw [field?, hany rest, Option.map_some]
  show some (v, (body ++ rest).drop body.length) = _
  rw [List.drop_left]

theorem optionalField?_eq_some {announced : Bool} {least absent v : Nat} {t rest : Bytes}
    (hf : optionalField? announced least absent t = some (v, rest)) :
    ∃ body, t = body ++ rest ∧ Reads (optionalField? announced least absent) 6 v body := by
  cases announced with
  | false =>
    cases hf
    exact ⟨[], rfl, ⟨by simp, by simp⟩, fun _ => rfl⟩
  | true =>
    obtain ⟨body, rfl, -, hreads⟩ := field?_eq_some hf
    exact ⟨body, rfl, hreads⟩

/-! ## Parameters -/

theorem atDollar_cons (rest : Bytes) : atDollar (Field.dollar :: rest) = true := rfl

theorem atDollar_append {body : Bytes} (hne : body ≠ [])
    (hchars : ∀ c ∈ body, Field.isCryptChar c = true) (rest : Bytes) :
    atDollar (body ++ rest) = false := by
  obtain ⟨c, body, rfl⟩ := List.exists_cons_of_ne_nil hne
  have hc := Field.ne_dollar_of_isCryptChar (hchars c List.mem_cons_self)
  simpa [atDollar] using hc

/-- Parameters ahead of a separator are read from their own characters. -/
theorem params?_eq_some {q : Params} {t rest : Bytes}
    (hp : params? t = some (q, Field.dollar :: rest)) :
    ∃ body, t = body ++ Field.dollar :: rest ∧ body.length ≤ 48 ∧
      (∀ c ∈ body, Field.isCryptChar c = true) ∧
      ∀ rest', params? (body ++ Field.dollar :: rest') = some (q, Field.dollar :: rest') := by
  simp only [params?, Option.bind_eq_bind, Option.bind_eq_some_iff] at hp
  obtain ⟨⟨m, t₁⟩, hm, mode, hmode, ⟨nLog, t₂⟩, hnLog, n, hn, ⟨r, t₃⟩, hr, hp⟩ := hp
  obtain ⟨b₁, rfl, -, h₁⟩ := field?_eq_some hm
  obtain ⟨b₂, rfl, -, h₂⟩ := field?_eq_some hnLog
  obtain ⟨b₃, rfl, -, h₃⟩ := field?_eq_some hr
  simp only at hp hmode hn
  split at hp
  · -- three numbers and the separator
    cases hp
    have hpart : Part 18 (b₁ ++ (b₂ ++ b₃)) := h₁.toPart.append (h₂.toPart.append h₃.toPart)
    refine ⟨_, by simp, Nat.le_trans hpart.length_le (by decide), hpart.isCryptChar, ?_⟩
    intro rest'
    simp [params?, h₁.read_append, hmode, h₂.read_append, hn, h₃.read_append, atDollar_cons]
  · -- a mask, which is no separator, and the numbers that it announces
    simp only [Option.bind_eq_some_iff] at hp
    obtain ⟨⟨mask, t₄⟩, hmask, ⟨p, t₅⟩, hlanes, ⟨time, t₆⟩, ht, ⟨g, t₇⟩, hg, ⟨romLog, t₈⟩,
      hrom, hp⟩ := hp
    simp only at hp hlanes ht hg hrom
    -- the size of the table in memory counts only if it is announced
    obtain ⟨nrom, hnrom, hp⟩ : ∃ nrom, (if mask.testBit 3 then power? romLog else some 0) =
        some nrom ∧ some (Params.mk mode n r p time g nrom, t₈) =
          some (q, Field.dollar :: rest) := by
      split at hp
      · next hbit =>
        obtain ⟨nrom, hnrom, hp⟩ := Option.bind_eq_some_iff.1 hp
        exact ⟨nrom, by rw [if_pos hbit, hnrom], hp⟩
      · next hbit => exact ⟨0, by rw [if_neg hbit], hp⟩
    cases hp
    obtain ⟨b₄, rfl, hne, h₄⟩ := field?_eq_some hmask
    obtain ⟨b₅, rfl, h₅⟩ := optionalField?_eq_some hlanes
    obtain ⟨b₆, rfl, h₆⟩ := optionalField?_eq_some ht
    obtain ⟨b₇, rfl, h₇⟩ := optionalField?_eq_some hg
    obtain ⟨b₈, rfl, h₈⟩ := optionalField?_eq_some hrom
    have hpart : Part 48 (b₁ ++ (b₂ ++ (b₃ ++ (b₄ ++ (b₅ ++ (b₆ ++ (b₇ ++ b₈))))))) :=
      h₁.toPart.append (h₂.toPart.append (h₃.toPart.append (h₄.toPart.append (h₅.toPart.append
        (h₆.toPart.append (h₇.toPart.append h₈.toPart))))))
    refine ⟨_, by simp, hpart.length_le, hpart.isCryptChar, ?_⟩
    intro rest'
    simp only [params?, List.append_assoc, h₁.read_append, hmode, h₂.read_append, hn,
      h₃.read_append, atDollar_append hne h₄.isCryptChar, h₄.read_append, h₅.read_append,
      h₆.read_append, h₇.read_append, h₈.read_append, Option.bind_eq_bind, Option.bind_some,
      Bool.false_eq_true, if_false, Option.pure_def]
    split at hnrom
    · next hbit => rw [if_pos hbit, hnrom, Option.bind_some]
    · next hbit =>
      cases hnrom
      rw [if_neg hbit]

/-! ## Reading -/

/-- Whether a text, without marker, says everything that is read from a setting: the parameters, a
    separator and the salt. -/
structure Spells (body : Bytes) (s : Setting) : Prop where
  length_le : body.length ≤ 135
  headLength_eq : s.headLength = tag.length + body.length
  isCryptChar_or_dollar : ∀ c ∈ body, Field.isCryptChar c = true ∨ c = Field.dollar
  parse?_append : ∀ {digest : Bytes}, (∀ c ∈ digest, Field.isCryptChar c = true) →
    parse? (tag ++ (body ++ Field.dollar :: digest)) = some s

/-- A setting is read from its parameters and the text that its salt is taken from, unless the salt
    is too long. -/
theorem parse?_eq_ite {q : Params} {body text salt : Bytes}
    (hq : ∀ rest, params? (body ++ Field.dollar :: rest) = some (q, Field.dollar :: rest))
    (htext : Bytes.beforeLast Field.dollar text = encodeLow salt) :
    parse? (tag ++ (body ++ Field.dollar :: text)) =
      if salt.length ≤ maxSalt then
        some ⟨q, salt, tag.length + (body ++ Field.dollar :: encodeLow salt).length⟩
      else none := by
  have hdollar : Bytes.after? [Field.dollar] (Field.dollar :: text) = some text :=
    Bytes.after?_append [Field.dollar] text
  have hlen : (tag ++ (body ++ Field.dollar :: text)).length - text.length +
      (encodeLow salt).length = tag.length + (body ++ Field.dollar :: encodeLow salt).length := by
    simp only [List.length_append, List.length_cons]
    omega
  rw [parse?, Bytes.after?_append]
  simp only [Option.bind_eq_bind, Option.bind_some, hq, hdollar, htext, decodeLow?_encodeLow, hlen]
  rfl

theorem parse?_of_params? {q : Params} {body text salt : Bytes}
    (hq : ∀ rest, params? (body ++ Field.dollar :: rest) = some (q, Field.dollar :: rest))
    (hsalt : salt.length ≤ maxSalt) (htext : Bytes.beforeLast Field.dollar text = encodeLow salt) :
    parse? (tag ++ (body ++ Field.dollar :: text)) =
      some ⟨q, salt, tag.length + (body ++ Field.dollar :: encodeLow salt).length⟩ := by
  rw [parse?_eq_ite hq htext, if_pos hsalt]

/-- What is read from a setting is in the text up to the last separator. -/
theorem spells_of_parse? {rest : Bytes} (hs : parse? (tag ++ rest) = some s) :
    ∃ body tail, rest = body ++ tail ∧ Spells body s := by
  have hparse := hs
  simp only [parse?, Option.bind_eq_bind, Option.bind_eq_some_iff, Bytes.after?_append,
    Option.some.injEq] at hs
  obtain ⟨_, rfl, ⟨q, after⟩, hq, text, htext, salt, hsalt, hs⟩ := hs
  simp only at hs htext
  split at hs
  · next hmax =>
    rw [Bytes.after?_eq_some_iff, List.singleton_append] at htext
    subst htext
    obtain ⟨body, rfl, hbound, hchars, hany⟩ := params?_eq_some hq
    have hcode := encodeLow_of_decodeLow? hsalt
    have hread := parse?_of_params? hany hmax hcode.symm
    have hsalt_chars : ∀ c ∈ encodeLow salt, Field.isCryptChar c = true :=
      fun c hc => has_of_mem_encodeLow hc
    obtain ⟨tail, htail⟩ := Bytes.beforeLast_prefix Field.dollar text
    rw [← hcode] at htail
    -- a canonical salt is written with the characters that it was read from
    have heq : s = ⟨q, salt, tag.length + (body ++ Field.dollar :: encodeLow salt).length⟩ :=
      Option.some.inj (hparse.symm.trans hread)
    refine ⟨body ++ Field.dollar :: encodeLow salt, tail, by rw [← htail]; simp, ?_, ?_, ?_, ?_⟩
    · have hlen := length_encodeLow salt
      have hmax' : salt.length ≤ 64 := hmax
      rw [List.length_append, List.length_cons]
      omega
    · rw [heq]
    · intro c hc
      rw [List.mem_append, List.mem_cons] at hc
      rcases hc with hc | hc | hc
      · exact .inl (hchars c hc)
      · exact .inr hc
      · exact .inl (hsalt_chars c hc)
    · intro digest hdigest
      have hbefore : Bytes.beforeLast Field.dollar (encodeLow salt ++ Field.dollar :: digest) =
          encodeLow salt := Bytes.beforeLast_append _ (Field.dollar_notMem hdigest)
      rw [List.append_assoc, List.cons_append, parse?_of_params? hany hmax hbefore, heq]
  · cases hs

/-- What is read from a setting under a marker, and the text that says it. -/
def read? (marker setting : Bytes) : Option (Setting × Bytes) := do
  let rest ← Bytes.after? marker setting
  let s ← parse? (tag ++ rest)
  pure (s, rest.take (s.headLength - tag.length))

/-- What yescrypt reads is read from the same text under every marker. -/
theorem read?_of_parse? {rest : Bytes} (hs : parse? (tag ++ rest) = some s) :
    ∃ body tail, (∀ marker, read? marker (marker ++ rest) = some (s, body)) ∧
      rest = body ++ tail ∧ Spells body s := by
  obtain ⟨body, tail, rfl, hbody⟩ := spells_of_parse? hs
  refine ⟨body, tail, fun marker => ?_, rfl, hbody⟩
  rw [read?, Bytes.after?_append]
  simp only [Option.bind_eq_bind, Option.bind_some, hs]
  rw [hbody.headLength_eq, Nat.add_sub_cancel_left, List.take_left]
  rfl

theorem read?_eq_some {marker body : Bytes} (hr : read? marker setting = some (s, body)) :
    Spells body s ∧ ∃ tail, setting = marker ++ (body ++ tail) ∧
      parse? (tag ++ (body ++ tail)) = some s := by
  simp only [read?, Option.bind_eq_bind, Option.bind_eq_some_iff, Option.pure_def,
    Option.some.injEq] at hr
  obtain ⟨rest, hrest, s', hs, he⟩ := hr
  cases he
  obtain ⟨body, tail, rfl, hbody⟩ := spells_of_parse? hs
  have htake : (body ++ tail).take (s.headLength - tag.length) = body := by
    rw [hbody.headLength_eq, Nat.add_sub_cancel_left, List.take_left]
  rw [htake]
  exact ⟨hbody, tail, Bytes.after?_eq_some_iff.1 hrest, hs⟩

/-- A setting is read back from the text that says it, ahead of any digest. -/
theorem Spells.read?_append {body digest : Bytes} (hb : Spells body s) (marker : Bytes)
    (hdigest : ∀ c ∈ digest, Field.isCryptChar c = true) :
    read? marker (marker ++ (body ++ Field.dollar :: digest)) = some (s, body) := by
  rw [read?, Bytes.after?_append]
  simp only [Option.bind_eq_bind, Option.bind_some, hb.parse?_append hdigest]
  rw [hb.headLength_eq, Nat.add_sub_cancel_left, List.take_left]
  rfl

/-! ## Hashing -/

theorem keyed_eq_ok_iff {key : Bytes} : keyed phrase setting = .ok (s, key) ↔
    parse? setting = some s ∧ s.params.checked = .ok () ∧
      derivedKey phrase s.salt s.params = key := by
  simp only [keyed, Checks.orInvalid_bind_eq_ok_iff]
  simp only [Checks.bind_eq_ok_iff, derive_eq_ok_iff]
  constructor
  · rintro ⟨s', hs, key', ⟨hchecked, rfl⟩, he⟩
    cases he
    exact ⟨hs, hchecked, rfl⟩
  · rintro ⟨hs, hchecked, rfl⟩
    exact ⟨s, hs, _, ⟨hchecked, rfl⟩, rfl⟩

theorem length_encodeLow_key {key : Bytes} (hkey : key.length = 32) :
    (encodeLow key).length = 43 := by
  rw [length_encodeLow, hkey]

/-- The text ahead of a digest. -/
def head (marker body : Bytes) : Bytes := marker ++ (body ++ [Field.dollar])

/-- The digest of a phrase. -/
def digestText (s : Setting) (phrase : Bytes) : Bytes :=
  encodeLow (derivedKey phrase s.salt s.params)

theorem Spells.take_headLength {body : Bytes} (hb : Spells body s) (tail : Bytes) :
    (tag ++ (body ++ tail)).take s.headLength = tag ++ body := by
  rw [hb.headLength_eq, List.take_length_add_append, List.take_left]

theorem exists_tag_append (hs : parse? setting = some s) : ∃ rest, setting = tag ++ rest := by
  simp only [parse?, Option.bind_eq_bind, Option.bind_eq_some_iff] at hs
  obtain ⟨rest, hrest, -⟩ := hs
  exact ⟨rest, Bytes.after?_eq_some_iff.1 hrest⟩

theorem parse?_of_read? {body : Bytes} (hr : read? tag setting = some (s, body)) :
    parse? setting = some s ∧ setting.take s.headLength = tag ++ body := by
  obtain ⟨hb, tail, rfl, hs⟩ := read?_eq_some hr
  exact ⟨hs, hb.take_headLength tail⟩

theorem hash_eq_ok_iff : hash room phrase setting = .ok h ↔
    outputSize setting ≤ room.output ∧ scratchSize ≤ room.scratch ∧
      ∃ s body, read? tag setting = some (s, body) ∧ s.params.checked = .ok () ∧
        h.length + 1 ≤ room.output ∧ head tag body ++ digestText s phrase = h := by
  simp only [hash, Checks.need_bind_eq_ok_iff]
  simp only [Checks.bind_eq_ok_iff, Checks.fit_eq_ok_iff, Prod.exists, keyed_eq_ok_iff]
  constructor
  · rintro ⟨ho, hs, s, _, ⟨hparse, hchecked, rfl⟩, hfit, hmade⟩
    -- the hash repeats the setting up to the last separator
    obtain ⟨rest, rfl⟩ := exists_tag_append hparse
    obtain ⟨body, tail, hread, rfl, hb⟩ := read?_of_parse? hparse
    refine ⟨ho, hs, s, body, hread tag, hchecked, hfit, ?_⟩
    rw [← hmade, hb.take_headLength tail]
    simp [head, digestText]
  · rintro ⟨ho, hs, s, body, hread, hchecked, hfit, hmade⟩
    obtain ⟨hparse, htake⟩ := parse?_of_read? hread
    refine ⟨ho, hs, s, _, ⟨hparse, hchecked, rfl⟩, hfit, ?_⟩
    rw [← hmade, htake]
    simp [head, digestText]

theorem hash_demands (phrase setting : Bytes) :
    Room.Demands fun room => hash room phrase setting :=
  .bind (.output _) fun _ => .bind (.scratch _) fun _ => .bind (.const _) fun (_, _) => .fit _

/-! ## Layouts -/

/-- How many characters a digest has. -/
def digestLength : Nat := 43

/-- The text up to the last separator, and 43 characters of digest. The bytes that are asked for
    grow with the setting. -/
def layoutWith (marker : Bytes) (hmarker : Setting.hasForbidden marker = false) : Layout where
  Reading := Setting × Bytes
  read? := read? marker
  head r := head marker r.2
  isLength n := n == digestLength
  isChar := Field.isCryptChar
  sizing room _ setting := setting + 1 + 43 + 1 ≤ room.output
  isLength_zero := rfl
  isForbidden_of_isChar := Field.isForbidden_of_isCryptChar
  reread hr _ hdigest := by
    obtain ⟨hb, -⟩ := read?_eq_some hr
    rw [head, List.append_assoc, List.append_assoc, List.singleton_append]
    exact hb.read?_append marker hdigest
  hasForbidden_head {setting r} hr _ := by
    obtain ⟨hb, -⟩ := read?_eq_some hr
    have hbody : Setting.hasForbidden r.2 = false := by
      rw [Setting.hasForbidden_eq_false_iff]
      intro c hc
      rcases hb.isCryptChar_or_dollar c hc with hc | rfl
      · exact Field.isForbidden_of_isCryptChar hc
      · exact Setting.isForbidden_dollar
    simp [head, hmarker, hbody]

theorem length_head_le {marker body : Bytes} (hb : Spells body s) :
    (head marker body).length ≤ marker.length + 136 := by
  have hlen := hb.length_le
  simp only [head, List.length_append, List.length_singleton]
  omega

/-- The layout of yescrypt. -/
def layout : Layout := layoutWith tag (by decide)

theorem layout_describes : layout.Describes hash where
  shape hh := by
    obtain ⟨-, -, s, body, hr, -, hfit, rfl⟩ := hash_eq_ok_iff.1 hh
    exact ⟨hfit, (s, body), _, hr, ⟨beq_iff_eq.2 (length_encodeLow_key (length_derivedKey ..)),
      fun c hc => has_of_mem_encodeLow hc⟩, rfl⟩
  congr {room phrase setting setting'} r hr hr' hsize := by
    obtain ⟨s, body⟩ := r
    replace hr : read? tag setting = some (s, body) := hr
    replace hr' : read? tag setting' = some (s, body) := hr'
    obtain ⟨hs, htake⟩ := parse?_of_read? hr
    obtain ⟨hs', htake'⟩ := parse?_of_read? hr'
    -- the key depends on what is read, the rest of the hash on the text that says it
    have hkeyed : keyed phrase setting = keyed phrase setting' := by
      simp only [keyed, hs, hs']
    have hneed : Room.need room.output (outputSize setting) =
        Room.need room.output (outputSize setting') := Checks.need_congr hsize
    rw [hash, hash, hneed, hkeyed]
    cases hk : keyed phrase setting' with
    | error e => rfl
    | ok p =>
      obtain ⟨s', key⟩ := p
      -- the setting that the key is derived under is the one that is read
      obtain ⟨hparse, -, -⟩ := keyed_eq_ok_iff.1 hk
      rw [hs', Option.some.injEq] at hparse
      subst hparse
      simp only [bind, Except.bind, htake, htake']

/-- A hash leaves enough room for hashing under it, because all that is read is short. -/
theorem sizing_of_spells {marker body digest : Bytes} {hmarker} (hb : Spells body s)
    (hlen : digest.length = 43) (hroom : marker.length + 224 ≤ room.output)
    (hs : outputSize setting ≤ room.output) :
    (layoutWith marker hmarker).sizing room phrase.length (head marker body ++ digest).length =
      (layoutWith marker hmarker).sizing room phrase.length setting.length := by
  have hhead : (head marker body).length ≤ marker.length + 136 := length_head_le hb
  have hfit : (head marker body ++ digest).length + 1 + 43 + 1 ≤ room.output := by
    rw [List.length_append, hlen]
    omega
  exact (decide_eq_true hfit).trans (decide_eq_true hs).symm

theorem sizing_hash (hh : hash room phrase setting = .ok h) (hroom : 227 ≤ room.output) :
    layout.sizing room phrase.length h.length =
      layout.sizing room phrase.length setting.length := by
  obtain ⟨ho, -, s, body, hr, -, -, rfl⟩ := hash_eq_ok_iff.1 hh
  have htag : tag.length = 3 := by decide
  exact sizing_of_spells (read?_eq_some hr).1 (length_encodeLow_key (length_derivedKey ..))
    (by omega) ho

/-! ## Fresh settings -/

/-- The parameters of a fresh setting. -/
def freshParams (count : Nat) : Params :=
  ⟨.readWrite Mode.supportedFlavor, 1 <<< (freshSizes count).2, (freshSizes count).1, 1, 0, 0, 0⟩

theorem checked_freshParams {count : Nat} (hcount : count ≤ 11) :
    (freshParams count).checked = .ok () := by
  have hall : ∀ count < 12, (freshParams count).checked.isOk = true := by decide +kernel
  exact Checks.eq_ok_of_isOk (hall count (by omega))

theorem field?_append {least v : Nat} {text : Bytes} (h : writeNumber? least v = some text)
    (rest : Bytes) : field? least (text ++ rest) = some (v, rest) := by
  rw [field?, readNumber?_append h, Option.map_some]
  show some (v, (text ++ rest).drop text.length) = _
  rw [List.drop_left]

/-- Fresh parameters are read back ahead of a separator. -/
theorem params?_append {count : Nat} (hcount : count ≤ 11) {text : Bytes}
    (htext : freshParams? count = some text) (rest : Bytes) :
    params? (text ++ Field.dollar :: rest) = some (freshParams count, Field.dollar :: rest) := by
  simp only [freshParams?, Option.bind_eq_bind, Option.bind_eq_some_iff, Option.pure_def,
    Option.some.injEq] at htext
  obtain ⟨mode, hmode, n, hn, size, hsize, rfl⟩ := htext
  -- three numbers and no mask, and the exponents of all costs fit a word
  have hpower : power? (freshSizes count).2 = some (1 <<< (freshSizes count).2) := by
    have hall : ∀ count < 12, (freshSizes count).2 ≤ 63 := by decide
    rw [power?, if_pos (hall count (by omega))]
  have hnumber : mode? (modeNumber (.readWrite Mode.supportedFlavor)) =
      some (.readWrite Mode.supportedFlavor) := rfl
  simp only [params?, List.append_assoc, field?_append hmode, field?_append hn,
    field?_append hsize, Option.bind_eq_bind, Option.bind_some, hnumber, hpower, atDollar_cons,
    if_true]
  rfl

theorem isCryptChar_of_freshParams? {count : Nat} (hcount : count ≤ 11) {text : Bytes}
    (htext : freshParams? count = some text) : ∀ c ∈ text, Field.isCryptChar c = true := by
  obtain ⟨body, hbody, -, hchars, -⟩ := params?_eq_some (params?_append hcount htext [])
  rw [List.append_cancel_right hbody]
  exact hchars

theorem generateWith_eq_ok {marker salt : Bytes} {capacity count : Nat}
    (hg : generateWith marker capacity count salt = .ok setting) :
    count ≤ 11 ∧ setting.length + 1 ≤ capacity ∧ ∃ params, freshParams? count = some params ∧
      setting = marker ++ (params ++ Field.dollar :: encodeLow salt) := by
  simp only [generateWith, Checks.need_bind_eq_ok_iff, Checks.unlessInvalid_bind_eq_ok_iff,
    Bool.and_eq_true, decide_eq_true_eq] at hg
  obtain ⟨-, ⟨hcount, -⟩, hg⟩ := hg
  split at hg
  · next params hparams =>
    obtain ⟨hfit, rfl⟩ := Room.fit_eq_ok_iff.1 hg
    exact ⟨hcount, hfit, params, hparams, by simp⟩
  · cases hg

theorem hasForbidden_of_generateWith {marker salt : Bytes} {capacity count : Nat}
    (hmarker : Setting.hasForbidden marker = false)
    (hg : generateWith marker capacity count salt = .ok setting) :
    Setting.hasForbidden setting = false := by
  obtain ⟨hcount, -, params, hparams, rfl⟩ := generateWith_eq_ok hg
  have hp := Setting.hasForbidden_of_isCryptChar (isCryptChar_of_freshParams? hcount hparams)
  have hsalt : Setting.hasForbidden (encodeLow salt) = false :=
    Setting.hasForbidden_of_isCryptChar fun _ hc => has_of_mem_encodeLow hc
  simp [hmarker, hp, hsalt]

theorem generateWith_fitting (marker : Bytes) (capacity count : Nat) (random : Bytes) :
    Room.Fitting capacity (generateWith marker capacity count random) := by
  refine .bind fun _ => .bind fun _ => ?_
  split
  · exact .fit _
  · exact .error _

/-- A fresh setting has no forbidden characters and starts with the marker. -/
theorem clean_of_generateWith {marker salt : Bytes} {capacity count : Nat}
    (hmarker : Setting.hasForbidden marker = false)
    (hg : generateWith marker capacity count salt = .ok setting) :
    Setting.hasForbidden setting = false ∧ marker <+: setting := by
  have hclean := hasForbidden_of_generateWith hmarker hg
  obtain ⟨-, -, params, -, rfl⟩ := generateWith_eq_ok hg
  exact ⟨hclean, List.prefix_append ..⟩

theorem generateWith_demands (marker : Bytes) (count : Nat) (random : Bytes) :
    Room.Demands fun room => generateWith marker room.output count random := by
  refine .bind (.output _) fun _ => .bind (.const _) fun _ => ?_
  split
  · exact .fit _
  · exact .const _

/-- A fresh setting is read to its end, unless its salt is too long. -/
theorem parse?_of_generateWith {marker salt : Bytes} {capacity count : Nat}
    (hg : generateWith marker capacity count salt = .ok setting) :
    ∃ rest, setting = marker ++ rest ∧ parse? (tag ++ rest) =
      if salt.length ≤ maxSalt then some ⟨freshParams count, salt, tag.length + rest.length⟩
      else none := by
  obtain ⟨hcount, -, params, hparams, rfl⟩ := generateWith_eq_ok hg
  have hchars : ∀ c ∈ encodeLow salt, Field.isCryptChar c = true :=
    fun c hc => has_of_mem_encodeLow hc
  -- a salt without separator is read to its end
  have hbefore : Bytes.beforeLast Field.dollar (encodeLow salt) = encodeLow salt :=
    Bytes.beforeLast_eq_self (Field.dollar_notMem hchars)
  exact ⟨_, rfl, parse?_eq_ite (params?_append hcount hparams) hbefore⟩

/-- The text of a fresh setting with a salt that is not too long says what is read from it. -/
theorem read?_of_generateWith {marker salt : Bytes} {capacity count : Nat}
    (hg : generateWith marker capacity count salt = .ok setting) (hsalt : salt.length ≤ maxSalt) :
    ∃ s body, marker ++ body = setting ∧ read? marker (marker ++ body) = some (s, body) ∧
      s.params.checked = .ok () := by
  obtain ⟨hcount, -⟩ := generateWith_eq_ok hg
  obtain ⟨rest, rfl, hparse⟩ := parse?_of_generateWith hg
  rw [if_pos hsalt] at hparse
  obtain ⟨body, tail, hread, hbody, hb⟩ := read?_of_parse? hparse
  -- so the text that says what is read is the whole setting
  have htail : tail = [] := by
    have hlen := congrArg List.length hbody
    have hhead := hb.headLength_eq
    simp only [List.length_append] at hlen hhead
    exact List.eq_nil_of_length_eq_zero (by omega)
  rw [htail, List.append_nil] at hbody
  rw [hbody] at hread
  exact ⟨_, body, by rw [hbody], hread marker, checked_freshParams hcount⟩

/-- The parameters that a cost from 1 to 11 stands for, and 5 in place of 0: blocks of 1 KiB up to
    2 MiB, and of 4 KiB above that. -/
def costParams (count : Nat) : Params :=
  let cost := if count = 0 then 5 else count
  { mode := .readWrite 0x2d
    n := if cost < 3 then 2 ^ (cost + 9) else 2 ^ (cost + 7)
    r := if cost < 3 then 8 else 32
    p := 1
    t := 0
    g := 0
    nrom := 0 }

theorem freshParams_eq_costParams (count : Nat) : freshParams count = costParams count := by
  unfold freshParams costParams freshSizes
  by_cases hsmall : (if count = 0 then 5 else count) < 3
  · simp only [if_pos hsmall, Nat.one_shiftLeft]
    rfl
  · simp only [if_neg hsmall, Nat.one_shiftLeft]
    rfl

/-- What makes the fresh settings under a marker fit for use: hashes of a setting that is read, with
    admissible parameters, if there is room for them. -/
theorem usable_of_generateWith {marker salt : Bytes} {capacity count : Nat}
    {hash : Room → (phrase setting : Bytes) → Except Failure Bytes}
    (hmarker : Setting.hasForbidden marker = false) (hlength : marker.length ≤ 6)
    (hhash : ∀ {room : Room} {phrase setting body : Bytes} {s : Setting},
      outputSize setting ≤ room.output → scratchSize ≤ room.scratch →
        read? marker setting = some (s, body) → s.params.checked = .ok () →
          (head marker body).length + 44 ≤ room.output → ∃ h, hash room phrase setting = .ok h)
    (hg : generateWith marker capacity count salt = .ok setting) (hsalt : salt.length ≤ maxSalt)
    (hcapacity : capacity ≤ 192) :
    (layoutWith marker hmarker).Usable hash ⟨384, Hashing.scratchSize⟩ setting := by
  obtain ⟨-, hlen, -⟩ := generateWith_eq_ok hg
  have hforbidden := hasForbidden_of_generateWith hmarker hg
  obtain ⟨s, body, rfl, hread, hchecked⟩ := read?_of_generateWith hg hsalt
  have hhead : (head marker body).length ≤ marker.length + 136 :=
    length_head_le (read?_eq_some hread).1
  constructor
  case reads =>
    refine ⟨(s, body), hread, ?_⟩
    show _ <+: head _ _
    rw [head, ← List.append_assoc]
    exact List.prefix_append ..
  case hasForbidden => exact hforbidden
  case hashes =>
    intro phrase _
    refine hhash ?_ (by decide) hread hchecked ?_
    · show (marker ++ body).length + 1 + 43 + 1 ≤ 384
      omega
    · show (head marker body).length + 44 ≤ 384
      omega

/-- Under a setting that is read, with admissible parameters, every phrase has a hash. -/
theorem exists_hash {body : Bytes} (ho : outputSize setting ≤ room.output)
    (hs : scratchSize ≤ room.scratch) (hread : read? tag setting = some (s, body))
    (hchecked : s.params.checked = .ok ()) (hfit : (head tag body).length + 44 ≤ room.output) :
    ∃ h, hash room phrase setting = .ok h := by
  refine ⟨_, hash_eq_ok_iff.2 ⟨ho, hs, s, body, hread, hchecked, ?_, rfl⟩⟩
  rw [List.length_append, digestText, length_encodeLow_key (length_derivedKey ..)]
  exact hfit

/-- What keeps a key from being derived keeps a phrase from being hashed. -/
theorem hash_eq_error {e : Failure} (ho : outputSize setting ≤ room.output)
    (hs : scratchSize ≤ room.scratch) (hk : keyed phrase setting = .error e) :
    hash room phrase setting = .error e := by
  rw [hash, Room.need, Room.need, if_pos ho, if_pos hs, hk]
  rfl

theorem keyed_eq_invalid (hp : parse? setting = none) : keyed phrase setting = .error .invalid := by
  rw [keyed, hp]
  rfl

/-- A setting that is not read is refused as invalid. -/
theorem hash_eq_invalid (ho : outputSize setting ≤ room.output)
    (hs : scratchSize ≤ room.scratch) (hp : parse? setting = none) :
    hash room phrase setting = .error .invalid :=
  hash_eq_error ho hs (keyed_eq_invalid hp)

/-! ## Tagged variants -/

namespace Keyed

variable {v : Keyed}

theorem hasForbidden_tag (v : Keyed) : Setting.hasForbidden v.tag = false := by
  cases v <;> decide

/-- Every marker is longer than the one of yescrypt. -/
theorem length_tag_bounds (v : Keyed) : 4 ≤ v.tag.length ∧ v.tag.length ≤ 6 := by
  cases v <;> decide

/-- The tag covers nothing beyond the text that is read. -/
theorem covered?_eq_some {body tail : Bytes} (hb : Spells body s) :
    covered? (v.tag ++ (body ++ tail)) s.headLength =
      some ((v.tag ++ body).take (s.headLength + 1)) := by
  obtain ⟨hmin, -⟩ := v.length_tag_bounds
  have htag : YescryptHash.tag.length = 3 := by decide
  have hhead := hb.headLength_eq
  rw [covered?, if_pos (by simp only [List.length_append]; omega), ← List.append_assoc,
    List.take_append_of_le_length (by simp only [List.length_append]; omega)]

/-- The digest of a phrase. -/
def digestText (v : Keyed) (s : Setting) (body phrase : Bytes) : Bytes :=
  encodeLow (v.mark phrase ((v.tag ++ body).take (s.headLength + 1))
    (derivedKey phrase s.salt s.params))

theorem length_digestText (v : Keyed) (s : Setting) (body phrase : Bytes) :
    (v.digestText s body phrase).length = 43 := by
  have hmark : v.function.digestSize = 32 := by cases v <;> rfl
  exact length_encodeLow_key ((Hmac.length_tag ..).trans hmark)

theorem hash_eq_ok_iff : v.hash room phrase setting = .ok h ↔
    outputSize setting ≤ room.output ∧ scratchSize ≤ room.scratch ∧
      ∃ s body, read? v.tag setting = some (s, body) ∧ s.params.checked = .ok () ∧
        h.length + 1 ≤ room.output ∧ head v.tag body ++ v.digestText s body phrase = h := by
  simp only [hash, Checks.need_bind_eq_ok_iff, Checks.orInvalid_bind_eq_ok_iff]
  simp only [Checks.bind_eq_ok_iff, Checks.orInvalid_eq_ok_iff, Checks.fit_eq_ok_iff, Prod.exists,
    keyed_eq_ok_iff]
  constructor
  · rintro ⟨ho, rest, hrest, hs, s, _, ⟨hparse, hchecked, rfl⟩, covered, hcovered, hfit, hmade⟩
    obtain ⟨body, tail, hread, rfl, hb⟩ := read?_of_parse? hparse
    rw [Bytes.after?_eq_some_iff] at hrest
    subst hrest
    rw [covered?_eq_some hb, Option.some.injEq] at hcovered
    subst hcovered
    refine ⟨ho, hs, s, body, hread v.tag, hchecked, hfit, ?_⟩
    rw [← hmade, hb.take_headLength tail, List.drop_left]
    simp [head, digestText]
  · rintro ⟨ho, hs, s, body, hread, hchecked, hfit, hmade⟩
    obtain ⟨hb, tail, rfl, hparse⟩ := read?_eq_some hread
    refine ⟨ho, body ++ tail, Bytes.after?_append .., hs, s, _, ⟨hparse, hchecked, rfl⟩, _,
      covered?_eq_some hb, hfit, ?_⟩
    rw [← hmade, hb.take_headLength tail, List.drop_left]
    simp [head, digestText]

theorem hash_demands (v : Keyed) (phrase setting : Bytes) :
    Room.Demands fun room => v.hash room phrase setting :=
  .bind (.output _) fun _ => .bind (.const _) fun _ => .bind (.scratch _) fun _ =>
    .bind (.const _) fun (_, _) => .bind (.const _) fun _ => .fit _

/-- The layout of a tagged variant. -/
def layout (v : Keyed) : Layout := layoutWith v.tag v.hasForbidden_tag

theorem layout_describes (v : Keyed) : v.layout.Describes v.hash where
  shape hh := by
    obtain ⟨-, -, s, body, hr, -, hfit, rfl⟩ := hash_eq_ok_iff.1 hh
    exact ⟨hfit, (s, body), _, hr, ⟨beq_iff_eq.2 (length_digestText ..),
      fun c hc => has_of_mem_encodeLow hc⟩, rfl⟩
  congr {room phrase setting setting'} r hr hr' hsize := by
    obtain ⟨s, body⟩ := r
    obtain ⟨hb, tail, rfl, hs⟩ := read?_eq_some hr
    obtain ⟨-, tail', rfl, hs'⟩ := read?_eq_some hr'
    -- key and tagged text are the same for both, whatever follows the text that is read
    have hkeyed : keyed phrase (YescryptHash.tag ++ (body ++ tail)) =
        keyed phrase (YescryptHash.tag ++ (body ++ tail')) := by
      simp only [keyed, hs, hs']
    have hneed : Room.need room.output (outputSize (v.tag ++ (body ++ tail))) =
        Room.need room.output (outputSize (v.tag ++ (body ++ tail'))) := Checks.need_congr hsize
    rw [hash, hash, hneed, Bytes.after?_append, Bytes.after?_append]
    simp only [Failure.orInvalid, bind, Except.bind]
    cases Room.need room.output (outputSize (v.tag ++ (body ++ tail'))) with
    | error e => rfl
    | ok _ =>
      cases Room.need room.scratch scratchSize with
      | error e => rfl
      | ok _ =>
        simp only [hkeyed]
        cases hk : keyed phrase (YescryptHash.tag ++ (body ++ tail')) with
        | error e => rfl
        | ok p =>
          obtain ⟨s', key⟩ := p
          -- the setting that the key is derived under is the one that is read
          obtain ⟨hparse, -, -⟩ := keyed_eq_ok_iff.1 hk
          rw [hs', Option.some.injEq] at hparse
          subst hparse
          simp only [covered?_eq_some hb, hb.take_headLength]

theorem sizing_hash (hh : v.hash room phrase setting = .ok h) (hroom : 230 ≤ room.output) :
    v.layout.sizing room phrase.length h.length =
      v.layout.sizing room phrase.length setting.length := by
  obtain ⟨ho, -, s, body, hr, -, -, rfl⟩ := hash_eq_ok_iff.1 hh
  obtain ⟨-, hmax⟩ := v.length_tag_bounds
  exact sizing_of_spells (read?_eq_some hr).1 (length_digestText ..) (by omega) ho

/-- Under a setting that is read, with admissible parameters, every phrase has a hash. -/
theorem exists_hash {body : Bytes} (ho : outputSize setting ≤ room.output)
    (hs : scratchSize ≤ room.scratch) (hread : read? v.tag setting = some (s, body))
    (hchecked : s.params.checked = .ok ()) (hfit : (head v.tag body).length + 44 ≤ room.output) :
    ∃ h, v.hash room phrase setting = .ok h := by
  refine ⟨_, hash_eq_ok_iff.2 ⟨ho, hs, s, body, hread, hchecked, ?_, rfl⟩⟩
  rw [List.length_append, length_digestText]
  exact hfit

/-- What keeps a key from being derived keeps a phrase from being hashed. -/
theorem hash_eq_error {rest : Bytes} {e : Failure} (ho : outputSize (v.tag ++ rest) ≤ room.output)
    (hs : scratchSize ≤ room.scratch) (hk : keyed phrase (YescryptHash.tag ++ rest) = .error e) :
    v.hash room phrase (v.tag ++ rest) = .error e := by
  rw [hash, Bytes.after?_append, Room.need, Room.need, if_pos ho, if_pos hs]
  show (keyed phrase (YescryptHash.tag ++ rest) >>= _) = _
  rw [hk]
  rfl

/-- A setting that is not read is refused as invalid. -/
theorem hash_eq_invalid {rest : Bytes} (ho : outputSize (v.tag ++ rest) ≤ room.output)
    (hs : scratchSize ≤ room.scratch) (hp : parse? (YescryptHash.tag ++ rest) = none) :
    v.hash room phrase (v.tag ++ rest) = .error .invalid :=
  hash_eq_error ho hs (keyed_eq_invalid hp)

/-- Fresh settings with the SM3 tag are fit for use, however many random bytes there are. -/
theorem usable_of_generate {capacity count : Nat} {random : Bytes}
    (hg : Keyed.sm3.generate capacity count random = .ok setting) (hcapacity : capacity ≤ 192) :
    Keyed.sm3.layout.Usable Keyed.sm3.hash ⟨384, Hashing.scratchSize⟩ setting ∧
      Keyed.sm3.tag <+: setting := by
  -- this variant cuts its random bytes to the longest salt
  have hsalt : (Keyed.sm3.saltBytes random).length ≤ maxSalt := by
    rw [saltBytes, List.length_take]
    exact Nat.min_le_left ..
  obtain ⟨-, -, params, -, hsetting⟩ := generateWith_eq_ok hg
  exact ⟨usable_of_generateWith Keyed.sm3.hasForbidden_tag Keyed.sm3.length_tag_bounds.2
    exists_hash hg hsalt hcapacity, hsetting ▸ List.prefix_append ..⟩

end Keyed

/-! ## Salting -/

/-- A salt holds the random bytes that a variant uses, and ends a fresh setting. -/
def salting (used : Bytes → Bytes) : Salting where
  part := used
  write := encodeLow
  field := Field.afterLast
  least := 0

theorem salting_describes_with (marker : Bytes) {used : Bytes → Bytes} (hused : used [] = [])
    (capacity : Nat) : (salting used).Describes fun count random =>
      generateWith marker capacity count (used random) where
  field_eq {count random setting} hg := by
    obtain ⟨-, -, params, -, rfl⟩ := generateWith_eq_ok hg
    have hsalt : Field.dollar ∉ encodeLow (used random) :=
      Field.dollar_notMem fun _ => has_of_mem_encodeLow
    rw [← List.append_assoc]
    exact Field.afterLast_append _ hsalt
  part_eq_nil_iff {count random setting} hg := by
    simp only [generateWith, Checks.need_bind_eq_ok_iff, Checks.unlessInvalid_bind_eq_ok_iff,
      Bool.and_eq_true, decide_eq_true_eq] at hg
    obtain ⟨-, ⟨-, hlen⟩, -⟩ := hg
    refine iff_of_false (fun h => ?_) (Nat.not_lt_zero _)
    replace h : used random = [] := h
    rw [h] at hlen
    cases hlen
  part_nil := hused
  write_nil := rfl
  write_injective h := encodeLow_injective h

theorem salting_describes (capacity : Nat) : (salting id).Describes (generate capacity) :=
  salting_describes_with tag rfl capacity

theorem Keyed.salting_describes (v : Keyed) (capacity : Nat) :
    (salting v.saltBytes).Describes (v.generate capacity) :=
  salting_describes_with v.tag (by cases v <;> rfl) capacity

end YescryptHash

end PassHash
