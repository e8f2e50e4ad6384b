import PassHash.Proofs.Hashing

/-!
# Stored Hashes

A phrase is verified by hashing it again under the stored hash. What is read from the hash is what
was read from the setting it was made with, so the right phrase gives the stored hash again, and the
digest at its end has no part in what any phrase gives.

## Main statements

- `Workspace.crypt_hash`: the right phrase gives the stored hash again, except with scrypt
- `Workspace.crypt_hash_scrypt`: with scrypt, for which hashes it does
- `Workspace.crypt_congr_digest`: the digest of a stored hash makes no difference
-/

namespace PassHash

namespace Workspace

variable {ws ws' : Workspace} {phrase setting h : Bytes} {m : Method}

/-! ## Verification -/

/-- A phrase gives its hash again, if the hash and the setting do not differ in what depends on
    their lengths. -/
theorem crypt_hash_of_sizing (hc : (ws.crypt phrase setting).1 = .ok h)
    (hsize : ∀ m, Method.ofSetting? setting = some m →
      m.hash Method.room phrase.beforeNul setting.beforeNul = .ok h →
      m.layout.sizing Method.room phrase.beforeNul.length h.length =
        m.layout.sizing Method.room phrase.beforeNul.length setting.beforeNul.length) :
    (ws'.crypt phrase h).1 = .ok h := by
  obtain ⟨hphrase, -, -⟩ := crypt_eq_ok_iff.1 hc
  obtain ⟨m, hm, ha, hh⟩ := exists_method_of_crypt_eq_ok hc
  have hclean := hasForbidden_of_crypt_eq_ok hc
  rw [crypt_eq_ok_iff, Setting.beforeNul_of_hasForbidden hclean]
  exact ⟨hphrase, hclean, m, Method.ofSetting?_of_hash ha hh,
    m.layout_describes.rehash hh (hsize m hm hh)⟩

/-- The right phrase gives the stored hash again, unless the method is scrypt. -/
theorem crypt_hash (hc : (ws.crypt phrase setting).1 = .ok h)
    (hm : Method.ofSetting? setting ≠ some .scrypt) : (ws'.crypt phrase h).1 = .ok h := by
  apply crypt_hash_of_sizing hc
  intro m hsel hh
  have hne : m ≠ .scrypt := by
    rintro rfl
    exact hm hsel
  exact Method.sizing_hash hne hh

/-- A count with leading zeros is read back from the hash, where it stands without them. -/
theorem crypt_hash_leadingZeros : ∃ digest : Bytes,
    (zero.crypt (Bytes.ascii "password") (Bytes.ascii "$sha1$007$salt")).1 =
      .ok (Bytes.ascii "$sha1$7$salt$" ++ digest) ∧
    (zero.crypt (Bytes.ascii "password") (Bytes.ascii "$sha1$7$salt$" ++ digest)).1 =
      .ok (Bytes.ascii "$sha1$7$salt$" ++ digest) := by
  have hm : Method.ofSetting? (Bytes.ascii "$sha1$007$salt") ≠ some .scrypt := by decide
  obtain ⟨digest, hc⟩ := exists_crypt_leadingZeros zero (Bytes.ascii "password") (by decide)
  exact ⟨digest, hc, crypt_hash hc hm⟩

/-! ## Verification with scrypt -/

/-- The right phrase is hashed under its hash by scrypt again, which counts the digest that stands
    in the hash into the room that it asks for. -/
theorem crypt_hash_eq_ite (hc : (ws.crypt phrase setting).1 = .ok h)
    (hm : Method.ofSetting? setting = some .scrypt) :
    (ws'.crypt phrase h).1 =
      if h.length + 1 + 43 + 1 ≤ Method.room.output then .ok h else .error .range := by
  obtain ⟨hphrase, -, -⟩ := crypt_eq_ok_iff.1 hc
  obtain ⟨ha, hh⟩ := hash_of_crypt_eq_ok hc hm
  have hclean := hasForbidden_of_crypt_eq_ok hc
  rw [crypt_fst, Setting.beforeNul_of_hasForbidden hclean,
    Hashing.text_eq_hash hphrase hclean (Method.ofSetting?_of_hash ha hh)]
  exact ScryptHash.hash_hash hh

/-- With scrypt the right phrase gives the stored hash again exactly if the hash has at most 339
    characters. A longer hash is made, but refused when a phrase is verified against it. -/
theorem crypt_hash_scrypt (hc : (ws.crypt phrase setting).1 = .ok h)
    (hm : Method.ofSetting? setting = some .scrypt) :
    (ws'.crypt phrase h).1 = if h.length ≤ 339 then .ok h else .error .range := by
  have hroom : h.length + 1 + 43 + 1 ≤ Method.room.output ↔ h.length ≤ 339 := by
    show h.length + 45 ≤ 384 ↔ h.length ≤ 339
    omega
  calc (ws'.crypt phrase h).1
      = if h.length + 1 + 43 + 1 ≤ Method.room.output then .ok h else .error .range :=
        crypt_hash_eq_ite hc hm
    _ = if h.length ≤ 339 then .ok h else .error .range := if_congr hroom rfl rfl

/-- The setting of scrypt with the least cost and a salt of `n` letters. -/
def scryptSetting (n : Nat) : Bytes :=
  ScryptHash.paramsText 1 1 1 ++ List.replicate n 'a'.toUInt8

theorem ofSetting?_scryptSetting (n : Nat) :
    Method.ofSetting? (scryptSetting n) = some .scrypt := by
  rw [scryptSetting, ScryptHash.paramsText, List.append_assoc]
  exact Method.ofSetting?_tag_append (m := .scrypt) (by decide) _

/-- Under such a setting the empty phrase has a hash, as long as the hash fits. -/
theorem exists_crypt_scryptSetting {n : Nat} (hn : n ≤ 325) :
    ∃ h, (zero.crypt [] (scryptSetting n)).1 = .ok h ∧ h.length = n + 58 := by
  have hchars : ∀ c ∈ List.replicate n 'a'.toUInt8, Field.isCryptChar c = true := by
    intro c hc
    rw [List.eq_of_mem_replicate hc]
    decide
  have hclean : Setting.hasForbidden (scryptSetting n) = false := by
    rw [scryptSetting, Setting.hasForbidden_append, ScryptHash.hasForbidden_paramsText,
      Setting.hasForbidden_of_isCryptChar hchars]
    rfl
  have hmemory : ScryptHash.memoryOk ⟨1, 1, 1, List.replicate n 'a'.toUInt8⟩ = true := by
    simp only [ScryptHash.memoryOk]
    decide
  refine ⟨_, ?_, (ScryptHash.length_head_append_digestText
    ⟨1, 1, 1, List.replicate n 'a'.toUInt8⟩ []).trans (by rw [List.length_replicate])⟩
  rw [crypt_fst, Setting.beforeNul_of_hasForbidden hclean,
    Hashing.text_eq_hash (by decide) hclean (ofSetting?_scryptSetting n)]
  apply ScryptHash.hash_paramsText_salt (by decide) (by decide) (by decide) (by decide) hchars
    hmemory (by rfl) (by decide)
  rw [List.length_replicate]
  show n + 59 ≤ 384
  omega

/-- A hash of 339 characters, the longest that is verified. -/
theorem crypt_hash_scrypt_longest : Method.ofSetting? (scryptSetting 281) = some .scrypt ∧
    ∃ h, (zero.crypt [] (scryptSetting 281)).1 = .ok h ∧ h.length = 339 ∧
      (zero.crypt [] h).1 = .ok h := by
  obtain ⟨h, hc, hlen⟩ := exists_crypt_scryptSetting (n := 281) (by decide)
  have hle : h.length ≤ 339 := Nat.le_of_eq hlen
  refine ⟨ofSetting?_scryptSetting 281, h, hc, hlen, ?_⟩
  rw [crypt_hash_scrypt hc (ofSetting?_scryptSetting 281), if_pos hle]

/-- A hash of 340 characters is made, and refused when the phrase is verified against it. -/
theorem crypt_hash_scrypt_refused : ∃ h, (zero.crypt [] (scryptSetting 282)).1 = .ok h ∧
    (zero.crypt [] h).1 = .error .range := by
  obtain ⟨h, hc, hlen⟩ := exists_crypt_scryptSetting (n := 282) (by decide)
  refine ⟨h, hc, ?_⟩
  rw [crypt_hash_eq_ite hc (ofSetting?_scryptSetting 282), if_neg]
  show ¬h.length + 45 ≤ 384
  omega

/-! ## Digests -/

/-- The digest of a stored hash makes no difference: with another one of its length in its place,
    every phrase has the same hash or is refused for the same cause. -/
theorem crypt_congr_digest {head digest digest' other : Bytes} {ws₁ ws₂ : Workspace}
    (hc : (ws.crypt phrase setting).1 = .ok (head ++ digest))
    (hm : Method.ofSetting? setting = some m)
    (hlen : digest.length = m.digestLength (head ++ digest))
    (hlen' : digest'.length = digest.length)
    (hchars : ∀ c ∈ digest', m.isDigestChar c = true) :
    (ws₁.crypt other (head ++ digest')).1 = (ws₂.crypt other (head ++ digest)).1 := by
  have hclean := hasForbidden_of_crypt_eq_ok hc
  obtain ⟨ha, hh⟩ := hash_of_crypt_eq_ok hc hm
  obtain ⟨-, r, made, hr, hd, heq⟩ := m.layout_describes.shape hh
  -- the split of the hash is the one that its method makes
  have hmade : digest.length = made.length := by
    rw [hlen, heq, ← Method.length_digest hd]
  obtain ⟨rfl, rfl⟩ := List.append_inj' heq hmade
  have hd' : m.layout.IsDigest digest' := by
    rw [Layout.IsDigest, hlen', Method.layout_isChar]
    exact ⟨hd.1, hchars⟩
  have hclean' : Setting.hasForbidden (m.layout.head r ++ digest') = false := by
    rw [Setting.hasForbidden_append, Bool.or_eq_false_iff] at hclean ⊢
    exact ⟨hclean.1, hd'.hasForbidden⟩
  have hself := Method.ofSetting?_eq_some_iff.2 (Method.accepts_head_append ha hr digest)
  have hself' := Method.ofSetting?_eq_some_iff.2 (Method.accepts_head_append ha hr digest')
  rw [crypt_fst, crypt_fst, Setting.beforeNul_of_hasForbidden hclean,
    Setting.beforeNul_of_hasForbidden hclean']
  exact Hashing.text_congr hclean' hclean hself' hself
    (m.layout_describes.hash_congr_digest hr hd hd' hlen')

/-- A salt of scrypt that holds a separator ends at the last one, whichever digest follows it. -/
theorem crypt_congr_digest_lastSeparator : ∃ digest : Bytes,
    (zero.crypt (Bytes.ascii "password") (Bytes.ascii "$7$//..../....Sodium$Chloride$")).1 =
      .ok (Bytes.ascii "$7$//..../....Sodium$Chloride$" ++ digest) ∧
    (zero.crypt (Bytes.ascii "passport")
        (Bytes.ascii "$7$//..../....Sodium$Chloride$" ++ List.replicate 43 'z'.toUInt8)).1 =
      (zero.crypt (Bytes.ascii "passport")
        (Bytes.ascii "$7$//..../....Sodium$Chloride$" ++ digest)).1 := by
  let s : ScryptHash.Setting := ⟨1, 1, 1, Bytes.ascii "Sodium$Chloride"⟩
  have hread : ScryptHash.parse? (Bytes.ascii "$7$//..../....Sodium$Chloride$") = some s := by
    decide
  have hhead : ScryptHash.head s = Bytes.ascii "$7$//..../....Sodium$Chloride$" := by
    decide
  have hm : Method.ofSetting? (Bytes.ascii "$7$//..../....Sodium$Chloride$") = some .scrypt := by
    decide
  have hlen := ScryptHash.length_digestText s (Bytes.ascii "password")
  have hc : (zero.crypt (Bytes.ascii "password")
      (Bytes.ascii "$7$//..../....Sodium$Chloride$")).1 =
        .ok (Bytes.ascii "$7$//..../....Sodium$Chloride$" ++
          ScryptHash.digestText s (Bytes.ascii "password")) := by
    refine crypt_eq_ok_iff.2 ⟨by decide, by decide, .scrypt, hm, ?_⟩
    refine ScryptHash.hash_eq_ok_iff.2
      ⟨by decide, s, hread, by decide, by decide, by decide, ?_, by rw [hhead]; rfl⟩
    rw [List.length_append, hlen]
    decide
  have hchars : ∀ c ∈ List.replicate 43 'z'.toUInt8, Method.scrypt.isDigestChar c = true := by
    intro c hc
    rw [List.eq_of_mem_replicate hc]
    decide
  exact ⟨_, hc, crypt_congr_digest hc hm hlen (by rw [hlen]; rfl) hchars⟩

end Workspace

end PassHash
