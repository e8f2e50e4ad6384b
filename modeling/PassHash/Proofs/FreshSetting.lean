import PassHash.FreshSetting
import PassHash.Proofs.Verification

/-!
# Laws of Fresh Settings

A fresh setting is one that the requested method makes for some random bytes, and it fits the area
of 192 bytes with its terminator. Whatever the cost and the random bytes, it is fit for use: every
phrase that is not too long has a hash that starts with it, and is verified against that hash. With
yescrypt and its GOST variant the salt may be too long to be read again: they take all random bytes
that fit the area, and a salt of more than 64 bytes is no salt.

## Main statements

- `FreshSetting.generate_eq_ok`: what a fresh setting is made by
- `FreshSetting.crypt_generate`: hashing under a fresh setting, and verification
- `FreshSetting.crypt_generate_yescrypt`: what is read from a fresh setting of the yescrypt family,
  and when nothing is
-/

namespace PassHash

namespace Area

/-- What is settled in an area was not refused, and is stored there. -/
theorem settle_eq_ok {area text : Bytes} {text? : Except Failure Bytes}
    (h : (settle area text?).1 = .ok text) :
    text? = .ok text ∧ text.length + 1 ≤ area.length ∧ (settle area text?).2 = store area text := by
  unfold settle at h ⊢
  split at h
  · cases h
  · next made =>
    cases hc : commit area made with
    | error e =>
      rw [hc] at h
      cases h
    | ok stored =>
      rw [hc] at h
      cases h
      obtain ⟨hlen, rfl⟩ := commit_eq_ok_iff.1 hc
      exact ⟨rfl, hlen, rfl⟩

end Area

namespace FreshSetting

variable {source : Entropy} {q : Request} {setting : Bytes}

/-- A setting that is made is one that the requested method makes for some random bytes. -/
theorem text_eq_ok {capacity : Nat} (ht : text source capacity q = .ok setting) :
    ∃ m random, q.method? = some m ∧ m.generate capacity q.count random = .ok setting := by
  simp only [text, Checks.need_bind_eq_ok_iff, Checks.orInvalid_bind_eq_ok_iff] at ht
  obtain ⟨-, m, hm, ht⟩ := ht
  split at ht
  · exact ⟨m, _, hm, ht⟩
  · obtain ⟨random, -, hmade⟩ := Checks.bind_eq_ok_iff.1 ht
    exact ⟨m, random, hm, hmade⟩

/-- The setting for a request with random bytes is the one that the method makes for them. -/
theorem text_of_random {capacity : Nat} {m : Method} {random : Bytes} (hcapacity : 3 ≤ capacity)
    (hm : q.method? = some m) (hr : q.random = some random) :
    text source capacity q = m.generate capacity q.count random := by
  rw [text, Room.need, if_pos hcapacity, hm, hr]
  rfl

/-- A setting that is returned from a small area is the one that is made for it, and fits it. -/
theorem text_eq_ok_of_run_eq_ok {area : Bytes} (harea : area.length ≤ maxSize)
    (hr : (run source area q).1 = .ok setting) :
    setting.length + 1 ≤ area.length ∧ text source area.length q = .ok setting := by
  obtain ⟨made, hsettle, hread⟩ := Checks.bind_eq_ok_iff.1 hr
  obtain ⟨ht, hlen, hstored⟩ := Area.settle_eq_ok hsettle
  obtain ⟨m, random, hm, hmade⟩ := text_eq_ok ht
  -- reading the stored text back cannot fail, since it has no forbidden characters
  have hclean := Method.hasForbidden_of_generate harea hmade
  replace hread : Hashing.read (Area.settle (Token.stamp [] area) (text source area.length q)).2 =
      .ok setting := hread
  rw [hstored, Hashing.read_store hclean, Except.ok.injEq] at hread
  subst hread
  rw [Token.length_stamp] at hlen
  exact ⟨hlen, ht⟩

/-- A setting that is returned from a small area was made by the method for some random bytes. -/
theorem run_eq_ok {area : Bytes} (harea : area.length ≤ maxSize)
    (hr : (run source area q).1 = .ok setting) :
    setting.length + 1 ≤ area.length ∧
      ∃ m random, q.method? = some m ∧ m.generate area.length q.count random = .ok setting := by
  obtain ⟨hlen, ht⟩ := text_eq_ok_of_run_eq_ok harea hr
  exact ⟨hlen, text_eq_ok ht⟩

/-- Every phrase that is not too long has a hash under a fresh setting. The hash starts with the
    setting, and the phrase is verified against it. -/
theorem crypt_generate {m : Method} {phrase : Bytes} {ws ws' : Workspace}
    (hg : generate source q = .ok setting) (hm : q.method? = some m) (hy : m ≠ .yescrypt)
    (hgost : m ≠ .keyedYescrypt .gost) (hphrase : phrase.length < 512) :
    ∃ h, (ws.crypt phrase setting).1 = .ok h ∧ setting <+: h ∧
      (ws'.crypt phrase h).1 = .ok h := by
  have harea : (List.replicate maxSize (0 : UInt8)).length = maxSize := List.length_replicate
  obtain ⟨hlen, m', random, hm', hmade⟩ := run_eq_ok (Nat.le_of_eq harea) hg
  rw [hm, Option.some.injEq] at hm'
  subst hm'
  rw [harea] at hlen hmade
  obtain ⟨hu, ha⟩ := Method.usable_of_generate hy hgost (by decide) hmade
  have hcut := Setting.beforeNul_of_hasForbidden hu.hasForbidden
  have hle : phrase.beforeNul.length ≤ Hashing.maxPhrase :=
    Nat.le_trans (List.takeWhile_prefix _).length_le (Nat.le_of_lt_succ hphrase)
  obtain ⟨h, hh⟩ := hu.hashes hle
  have hc : (ws.crypt phrase setting).1 = .ok h := by
    rw [Workspace.crypt_eq_ok_iff, hcut]
    exact ⟨hle, hu.hasForbidden, m, Method.ofSetting?_eq_some_iff.2 ha, hh⟩
  refine ⟨h, hc, hu.prefix_hash m.layout_describes hh, ?_⟩
  -- the setting is short enough for its hash to be hashed under, also with scrypt
  refine Workspace.crypt_hash_of_sizing hc fun m' _ hh' => Method.sizing_hash_of_length ?_ hh'
  rw [hcut]
  exact Nat.le_trans hlen (by decide)

/-- A setting of scrypt for its default cost. -/
theorem crypt_generate_scrypt :
    ∃ h, (Workspace.zero.crypt (Bytes.ascii "phrase")
        (Bytes.ascii "$7$CU..../....k2XAnEHBqQ1Ct2aMXFKNa/")).1 = .ok h ∧
      Bytes.ascii "$7$CU..../....k2XAnEHBqQ1Ct2aMXFKNa/" <+: h ∧
      (Workspace.zero.crypt (Bytes.ascii "phrase") h).1 = .ok h := by
  have hg : generate (fun _ => none)
      ⟨some (Bytes.ascii "$7$"), 0, some (Bytes.ascii "0123456789abcdef")⟩ =
        .ok (Bytes.ascii "$7$CU..../....k2XAnEHBqQ1Ct2aMXFKNa/") := by
    decide +kernel
  have hm : Request.method? ⟨some (Bytes.ascii "$7$"), 0, some (Bytes.ascii "0123456789abcdef")⟩ =
      some .scrypt := by
    decide
  exact crypt_generate hg hm (by decide) (by decide) (by decide)

end FreshSetting

/-! ## The yescrypt family -/

namespace Method

variable {m : Method}

/-- The methods that derive a key with yescrypt. -/
def yescryptFamily : List Method := [yescrypt, keyedYescrypt .gost, keyedYescrypt .sm3]

/-- The random bytes that a fresh setting of the family takes as its salt: all of them, or the first
    64 in the SM3 variant. -/
def freshSalt (m : Method) (random : Bytes) : Bytes :=
  if m = keyedYescrypt .sm3 then random.take 64 else random

theorem generate_eq_generateWith (hm : m ∈ yescryptFamily) (capacity count : Nat)
    (random : Bytes) : m.generate capacity count random =
      YescryptHash.generateWith m.tag capacity count (m.freshSalt random) := by
  simp only [yescryptFamily, List.mem_cons, List.not_mem_nil, or_false] at hm
  rcases hm with rfl | rfl | rfl <;> rfl

theorem ne_descrypt_of_mem (hm : m ∈ yescryptFamily) : m ≠ descrypt := by
  rintro rfl
  exact absurd hm (by decide)

/-- A fresh setting of the family whose salt is not too long is fit for use. -/
theorem usable_of_length_freshSalt_le (hm : m ∈ yescryptFamily) {count : Nat}
    {random setting : Bytes} (hg : m.generate 192 count random = .ok setting)
    (hsalt : (m.freshSalt random).length ≤ YescryptHash.maxSalt) :
    m.layout.Usable m.hash room setting := by
  rw [generate_eq_generateWith hm] at hg
  simp only [yescryptFamily, List.mem_cons, List.not_mem_nil, or_false] at hm
  rcases hm with rfl | rfl | rfl
  · exact YescryptHash.usable_of_generateWith (by decide) (by decide) YescryptHash.exists_hash hg
      hsalt (by decide)
  · exact YescryptHash.usable_of_generateWith (by decide) (by decide)
      YescryptHash.Keyed.exists_hash hg hsalt (by decide)
  · exact YescryptHash.usable_of_generateWith (by decide) (by decide)
      YescryptHash.Keyed.exists_hash hg hsalt (by decide)

/-- A setting of the family that is not read is refused as invalid. -/
theorem hash_eq_invalid_of_parse?_eq_none (hm : m ∈ yescryptFamily) {phrase rest : Bytes}
    (hlen : (m.tag ++ rest).length ≤ 191)
    (hp : YescryptHash.parse? (YescryptHash.tag ++ rest) = none) :
    m.hash room phrase (m.tag ++ rest) = .error .invalid := by
  have ho : YescryptHash.outputSize (m.tag ++ rest) ≤ room.output := by
    show (m.tag ++ rest).length + 1 + 43 + 1 ≤ 384
    omega
  have hs : YescryptHash.scratchSize ≤ room.scratch := by decide
  simp only [yescryptFamily, List.mem_cons, List.not_mem_nil, or_false] at hm
  rcases hm with rfl | rfl | rfl
  · exact YescryptHash.hash_eq_invalid ho hs hp
  · exact YescryptHash.Keyed.hash_eq_invalid (v := .gost) ho hs hp
  · exact YescryptHash.Keyed.hash_eq_invalid (v := .sm3) ho hs hp

end Method

namespace FreshSetting

/-- What is read from a fresh setting of the yescrypt family are the parameters of its cost and the
    random bytes, if these are at most 64. Otherwise nothing is read from it, and it is refused as
    invalid with every phrase that is not too long. -/
theorem crypt_generate_yescrypt {m : Method} {random : Bytes} (hm : m ∈ Method.yescryptFamily)
    (hq : q.method? = some m) (hr : q.random = some random)
    (hg : generate source q = .ok setting) :
    ∃ rest, setting = m.tag ++ rest ∧
      YescryptHash.parse? (YescryptHash.tag ++ rest) =
        (if (m.freshSalt random).length ≤ 64 then
          some ⟨YescryptHash.costParams q.count, m.freshSalt random,
            YescryptHash.tag.length + rest.length⟩
        else none) ∧
      ∀ (ws : Workspace) (phrase : Bytes), (ws.crypt phrase setting).1 = .error .invalid ↔
        phrase.beforeNul.length < 512 ∧ 64 < (m.freshSalt random).length := by
  have harea : (List.replicate maxSize (0 : UInt8)).length = 192 := List.length_replicate
  obtain ⟨hlen, ht⟩ := text_eq_ok_of_run_eq_ok (Nat.le_of_eq harea) hg
  rw [harea] at hlen ht
  have hmade : m.generate 192 q.count random = .ok setting := by
    rw [← text_of_random (by decide) hq hr, ht]
  have hclean := Method.hasForbidden_of_generate (Nat.le_refl 192) hmade
  obtain ⟨rest, rfl, hparse⟩ := YescryptHash.parse?_of_generateWith
    ((Method.generate_eq_generateWith hm 192 q.count random).symm.trans hmade)
  rw [YescryptHash.freshParams_eq_costParams] at hparse
  refine ⟨rest, rfl, hparse, fun ws phrase => ?_⟩
  have hsel : Method.ofSetting? (m.tag ++ rest) = some m :=
    Method.ofSetting?_tag_append (Method.ne_descrypt_of_mem hm) rest
  rw [Workspace.crypt_fst, Setting.beforeNul_of_hasForbidden hclean]
  by_cases hphrase : phrase.beforeNul.length < 512
  · rw [Hashing.text_eq_hash (Nat.le_of_lt_succ hphrase) hclean hsel]
    by_cases hsalt : (m.freshSalt random).length ≤ 64
    · -- the setting is fit for use, so there is a hash
      obtain ⟨h, hh⟩ := (Method.usable_of_length_freshSalt_le hm hmade hsalt).hashes
        (Nat.le_of_lt_succ hphrase)
      simp [hh, hsalt]
    · have hnone := hparse.trans (if_neg hsalt)
      have hrefused : m.hash Method.room phrase.beforeNul (m.tag ++ rest) = .error .invalid :=
        Method.hash_eq_invalid_of_parse?_eq_none hm (Nat.le_of_lt_succ hlen) hnone
      simp [hrefused, hphrase, Nat.lt_of_not_le hsalt]
  · -- a phrase that is too long is refused for its length
    have hlong : Hashing.maxPhrase < phrase.beforeNul.length := Nat.le_of_not_lt hphrase
    simp [Hashing.text_eq_range hlong, hphrase]

/-- The SM3 variant uses 64 of 96 random bytes, and its setting is read. -/
theorem crypt_generate_yescrypt_sm3 :
    ∃ rest, Bytes.ascii "$sm3y$j75$" ++ Base64.encodeLow (List.replicate 64 7) =
        Bytes.ascii "$sm3y$" ++ rest ∧
      YescryptHash.parse? (YescryptHash.tag ++ rest) =
        some ⟨YescryptHash.costParams 1, List.replicate 64 7,
          YescryptHash.tag.length + rest.length⟩ ∧
      (Workspace.zero.crypt (Bytes.ascii "phrase")
        (Bytes.ascii "$sm3y$j75$" ++ Base64.encodeLow (List.replicate 64 7))).1 ≠
          .error .invalid := by
  have hg : generate (fun _ => none)
      ⟨some (Bytes.ascii "$sm3y$"), 1, some (List.replicate 96 7)⟩ =
        .ok (Bytes.ascii "$sm3y$j75$" ++ Base64.encodeLow (List.replicate 64 7)) := by
    decide +kernel
  have hq : Request.method? ⟨some (Bytes.ascii "$sm3y$"), 1, some (List.replicate 96 7)⟩ =
      some (.keyedYescrypt .sm3) := by
    decide
  obtain ⟨rest, hrest, hparse, hcrypt⟩ := crypt_generate_yescrypt (by decide) hq rfl hg
  refine ⟨rest, hrest, hparse, fun hinvalid => ?_⟩
  exact absurd ((hcrypt _ _).1 hinvalid).2 (by decide)

/-- With 65 random bytes there is a fresh setting of yescrypt that is refused as invalid. -/
theorem crypt_generate_yescrypt_refused :
    generate (fun _ => none) ⟨some (Bytes.ascii "$y$"), 1, some (List.replicate 65 0)⟩ =
        .ok (Bytes.ascii "$y$j75$" ++ List.replicate 87 '.'.toUInt8) ∧
      (Workspace.zero.crypt (Bytes.ascii "phrase")
        (Bytes.ascii "$y$j75$" ++ List.replicate 87 '.'.toUInt8)).1 = .error .invalid := by
  rw [Workspace.crypt_fst]
  constructor
  · decide +kernel
  · decide

end FreshSetting

end PassHash
