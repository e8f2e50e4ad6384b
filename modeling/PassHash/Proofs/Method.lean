import Mathlib.Data.List.Nodup
import PassHash.Method
import PassHash.Proofs.Scheme.Argon2Hash
import PassHash.Proofs.Scheme.Bcrypt
import PassHash.Proofs.Scheme.BsdiCrypt
import PassHash.Proofs.Scheme.Descrypt
import PassHash.Proofs.Scheme.Md5Crypt
import PassHash.Proofs.Scheme.NtHash
import PassHash.Proofs.Scheme.ScryptHash
import PassHash.Proofs.Scheme.Sha1Crypt
import PassHash.Proofs.Scheme.ShaCrypt
import PassHash.Proofs.Scheme.SunMd5
import PassHash.Proofs.Scheme.Yescrypt

/-!
# Laws of All Methods

No marker starts another one, so a setting is accepted by one method at most, and the order in which
methods are tried does not matter. A hash starts with the marker of its setting and selects the same
method. Each method keeps to the layout of its scheme.

## Contents

- `Method.layout`: the layout of a method's hashes
- `Method.digestLength`, `Method.isDigestChar`: the digest at the end of a hash
- `Method.roundsSalt?`: the methods whose fresh salts take the room that there is

## Main statements

- `Method.ofName?_eq_some_iff`: no two methods have one name
- `Method.ofSetting?_eq_some_iff`: a setting selects the one method that accepts it
- `Method.find?_perm`: the order of the methods does not matter
- `Method.layout_describes`: every method keeps to its layout
- `Method.ofSetting?_of_hash`: a hash selects the method of its setting
- `Method.hash_demands`: more room makes no difference to a hash, and too little is refused
- `Method.sizing_hash`: a hash leaves as much room as its setting, except with scrypt
- `Method.usable_of_generate`: which fresh settings are fit for use
- `Method.ofSetting?_of_generate`: a fresh setting selects its method
- `Method.generate_fitting`: a fresh setting fits where it is to be stored
- `Method.generate_of_le`: what more room makes of a fresh setting
-/

namespace PassHash

namespace Method

variable {m m' : Method} {setting longer phrase h : Bytes}

/-! ## Selection -/

theorem mem_all (m : Method) : m ∈ all := by
  rcases m with _ | v | v | v | _ | v | _ | _ | _ | _ | _ | _
  all_goals first | decide | (cases v <;> decide)

/-- A method is found under its name, and under no other. -/
theorem ofName?_eq_some_iff {name : String} : ofName? name = some m ↔ m.name = name := by
  have hfound : ∀ m ∈ all, ofName? m.name = some m := by decide
  constructor
  · intro h
    exact beq_iff_eq.1 (List.find?_some (p := fun m : Method => m.name == name) h)
  · rintro rfl
    exact hfound m (mem_all m)

theorem tag_ne_nil (h : m ≠ descrypt) : m.tag ≠ [] := by
  have hall : ∀ m ∈ all, m ≠ descrypt → m.tag ≠ [] := by decide
  exact hall m (mem_all m) h

/-- Every method but traditional DES accepts the settings that start with its marker. -/
theorem accepts_iff (h : m ≠ descrypt) : m.accepts setting = true ↔ m.tag <+: setting := by
  have hne := tag_ne_nil h
  unfold accepts
  split
  · next hnil => exact absurd hnil hne
  · rw [Bytes.startsWith_iff]
    constructor
    · rintro ⟨rest, rfl⟩
      exact List.prefix_append ..
    · rintro ⟨rest, rfl⟩
      exact ⟨rest, rfl⟩

theorem accepts_descrypt : descrypt.accepts setting = isUnmarked setting := rfl

/-- No marker starts another one. -/
theorem eq_of_prefix_tag (h : m ≠ descrypt) (hpre : m.tag <+: m'.tag) : m = m' := by
  have hall : ∀ m ∈ all, m ≠ descrypt → ∀ m' ∈ all, m'.tag.startsWith m.tag = true → m = m' := by
    decide
  apply hall m (mem_all m) h m' (mem_all m')
  obtain ⟨rest, hrest⟩ := hpre
  exact Bytes.startsWith_iff.2 ⟨rest, hrest.symm⟩

/-- A setting with a marker is none of traditional DES. -/
theorem not_isUnmarked (h : m ≠ descrypt) (hpre : m.tag <+: setting) :
    isUnmarked setting = false := by
  have hall : ∀ m ∈ all, m ≠ descrypt → ∃ c ∈ m.tag.head?, Field.isCryptChar c = false := by
    decide
  -- the first character of every marker is one that no salt has
  obtain ⟨c, hc, hchar⟩ := hall m (mem_all m) h
  obtain ⟨rest, rfl⟩ := hpre
  have htag : ∃ lead, m.tag = c :: lead := by
    cases ht : m.tag with
    | nil =>
      rw [ht] at hc
      cases hc
    | cons d lead =>
      rw [ht] at hc
      cases hc
      exact ⟨lead, rfl⟩
  obtain ⟨lead, hlead⟩ := htag
  rw [hlead, List.cons_append]
  cases lead ++ rest with
  | nil => rfl
  | cons d rest => simp [isUnmarked, hchar]

/-- A setting is accepted by one method at most. -/
theorem accepts_unique (h : m.accepts setting = true) (h' : m'.accepts setting = true) :
    m = m' := by
  -- traditional DES has no marker, so it is compared with the others by its salt characters
  by_cases hm : m = descrypt
  · by_cases hm' : m' = descrypt
    · rw [hm, hm']
    · subst hm
      rw [accepts_iff hm'] at h'
      rw [accepts_descrypt, not_isUnmarked hm' h'] at h
      cases h
  · by_cases hm' : m' = descrypt
    · subst hm'
      rw [accepts_iff hm] at h
      rw [accepts_descrypt, not_isUnmarked hm h] at h'
      cases h'
    · rw [accepts_iff hm] at h
      rw [accepts_iff hm'] at h'
      -- the shorter of two markers of one setting starts the other
      rcases Nat.le_total m.tag.length m'.tag.length with hle | hle
      · exact eq_of_prefix_tag hm (List.prefix_of_prefix_length_le h h' hle)
      · exact (eq_of_prefix_tag hm' (List.prefix_of_prefix_length_le h' h hle)).symm

/-- A setting selects the one method that accepts it. -/
theorem ofSetting?_eq_some_iff : ofSetting? setting = some m ↔ m.accepts setting = true := by
  constructor
  · intro h
    exact List.find?_some (p := fun m : Method => m.accepts setting) h
  · intro h
    cases hf : ofSetting? setting with
    | none =>
      have hnone := List.find?_eq_none.1 hf m (mem_all m)
      exact absurd h hnone
    | some m' =>
      have h' := List.find?_some (p := fun m : Method => m.accepts setting) hf
      rw [accepts_unique h' h]

/-- No setting that selects a method starts like an option of a command line. -/
theorem head?_ne_hyphen (h : ofSetting? setting = some m) : setting.head? ≠ some '-'.toUInt8 := by
  rw [ofSetting?_eq_some_iff] at h
  intro hhyphen
  obtain ⟨rest, rfl⟩ := List.head?_eq_some_iff.1 hhyphen
  by_cases hm : m = descrypt
  · subst hm
    have hchar : Field.isCryptChar '-'.toUInt8 = false := by decide
    cases rest with
    | nil => cases h
    | cons d rest => simp [accepts_descrypt, isUnmarked, hchar] at h
  · have hall : ∀ m ∈ all, '-'.toUInt8 ∉ m.tag.head? := by decide
    rw [accepts_iff hm] at h
    obtain ⟨rest', hrest⟩ := h
    cases htag : m.tag with
    | nil => exact tag_ne_nil hm htag
    | cons c lead =>
      rw [htag, List.cons_append, List.cons.injEq] at hrest
      exact hall m (mem_all m) (by rw [htag, hrest.1]; rfl)

theorem nodup_all : all.Nodup := by decide

/-- Of all methods, the one that accepts a setting is the only one. -/
theorem filter_accepts (h : m.accepts setting = true) : all.filter (·.accepts setting) = [m] := by
  have hsame : ∀ m' ∈ all, m'.accepts setting = decide (m' = m) := by
    intro m' _
    by_cases hm : m' = m
    · rw [hm, h, decide_eq_true rfl]
    · rw [decide_eq_false hm, Bool.eq_false_iff]
      exact fun h' => hm (accepts_unique h' h)
  rw [List.filter_congr hsame, List.filter_eq, List.count_eq_one_of_mem nodup_all (mem_all m),
    List.replicate_one]

/-- The methods that accept a setting: none, or the one that it selects. -/
theorem filter_accepts_eq (setting : Bytes) :
    all.filter (·.accepts setting) = (ofSetting? setting).toList := by
  cases hs : ofSetting? setting with
  | none => exact List.filter_eq_nil_iff.2 (List.find?_eq_none.1 hs)
  | some m => exact filter_accepts (ofSetting?_eq_some_iff.1 hs)

/-- However the methods are ordered, a setting selects the same one. -/
theorem find?_perm {table : List Method} (h : table.Perm all) (setting : Bytes) :
    table.find? (·.accepts setting) = ofSetting? setting := by
  have hperm := h.filter (·.accepts setting)
  rw [filter_accepts_eq] at hperm
  rw [← List.head?_filter]
  -- at most one entry is left, and there is only one order of it
  cases hs : ofSetting? setting with
  | none =>
    rw [hs, Option.toList_none, List.perm_nil] at hperm
    rw [hperm, List.head?_nil]
  | some m =>
    rw [hs, Option.toList_some, List.perm_singleton] at hperm
    rw [hperm, List.head?_cons]

/-! ## Layouts -/

/-- The layout of a method's hashes. -/
def layout : Method → Layout
  | yescrypt => YescryptHash.layout
  | keyedYescrypt v => v.layout
  | bcrypt _ => Bcrypt.layout
  | argon2 v => Argon2Hash.layout v
  | scrypt => ScryptHash.layout
  | shaCrypt v => ShaCrypt.layout v
  | sha1Crypt => Sha1Crypt.layout
  | sunMd5 => SunMd5.layout
  | md5Crypt => Md5Crypt.layout
  | ntHash => NtHash.layout
  | bsdiCrypt => BsdiCrypt.layout
  | descrypt => Descrypt.layout

theorem layout_describes (m : Method) : m.layout.Describes m.hash := by
  cases m with
  | yescrypt => exact YescryptHash.layout_describes
  | keyedYescrypt v => exact v.layout_describes
  | bcrypt v => exact Bcrypt.layout_describes
  | argon2 v => exact Argon2Hash.layout_describes v
  | scrypt => exact ScryptHash.layout_describes
  | shaCrypt v => exact ShaCrypt.layout_describes v
  | sha1Crypt => exact Sha1Crypt.layout_describes
  | sunMd5 => exact SunMd5.layout_describes
  | md5Crypt => exact Md5Crypt.layout_describes
  | ntHash => exact NtHash.layout_describes
  | bsdiCrypt => exact BsdiCrypt.layout_describes
  | descrypt => exact Descrypt.layout_describes

/-- The head of a hash starts with the marker of its setting. -/
theorem tag_prefix_head (hm : m ≠ descrypt) (htag : m.tag <+: setting) {r : m.layout.Reading}
    (hr : m.layout.read? setting = some r) : m.tag <+: m.layout.head r := by
  cases m with
  | yescrypt => exact List.prefix_append ..
  | keyedYescrypt v => exact List.prefix_append ..
  | bcrypt v => exact Bcrypt.tag_prefix_text htag hr
  | argon2 v => exact Argon2Hash.tag_prefix_text v r
  | scrypt => exact ScryptHash.tag_prefix_head r
  | shaCrypt v => exact ShaCrypt.tag_prefix_text v r
  | sha1Crypt => exact Sha1Crypt.tag_prefix_text r
  | sunMd5 => exact SunMd5.tag_prefix_head r
  | md5Crypt => exact Md5Crypt.tag_prefix_head r
  | ntHash => exact List.prefix_append ..
  | bsdiCrypt => exact List.prefix_append ..
  | descrypt => exact absurd rfl hm

/-- Two characters of the alphabet make a setting of traditional DES. -/
theorem isUnmarked_cons {c d : UInt8} (hc : Field.isCryptChar c = true)
    (hd : Field.isCryptChar d = true) (rest : Bytes) : isUnmarked (c :: d :: rest) = true := by
  rw [isUnmarked, hc, hd, Bool.and_true]

/-- A head with a digest is accepted by the method that its setting is accepted by. -/
theorem accepts_head_append (ha : m.accepts setting = true) {r : m.layout.Reading}
    (hr : m.layout.read? setting = some r) (digest : Bytes) :
    m.accepts (m.layout.head r ++ digest) = true := by
  by_cases hm : m = descrypt
  · subst hm
    have hchars : ∀ c ∈ Base64.digits 2 r, Field.isCryptChar c = true :=
      fun c hc => Base64.has_of_mem_digits hc
    show isUnmarked (Base64.digits 2 r ++ digest) = true
    exact isUnmarked_cons (hchars _ List.mem_cons_self)
      (hchars _ (List.mem_cons_of_mem _ List.mem_cons_self)) digest
  · rw [accepts_iff hm] at ha ⊢
    exact (tag_prefix_head hm ha hr).trans (List.prefix_append ..)

/-- More characters after a setting do not change its method. -/
theorem ofSetting?_of_prefix (ha : m.accepts setting = true) (hne : setting ≠ [])
    (hpre : setting <+: longer) : ofSetting? longer = some m := by
  rw [ofSetting?_eq_some_iff]
  by_cases hm : m = descrypt
  · subst hm
    obtain ⟨rest, rfl⟩ := hpre
    rw [accepts_descrypt] at ha ⊢
    -- the two salt characters are there already
    match setting with
    | [] => exact absurd rfl hne
    | [_] => cases ha
    | c :: d :: salt =>
      have hchars : Field.isCryptChar c = true ∧ Field.isCryptChar d = true := by
        rwa [isUnmarked, Bool.and_eq_true] at ha
      exact isUnmarked_cons hchars.1 hchars.2 (salt ++ rest)
  · rw [accepts_iff hm] at ha ⊢
    exact ha.trans hpre

/-- The empty setting, which traditional DES accepts, has no hash. -/
theorem ne_nil_of_hash {available : Room} (ha : m.accepts setting = true)
    (hh : m.hash available phrase setting = .ok h) : setting ≠ [] := by
  rintro rfl
  by_cases hm : m = descrypt
  · subst hm
    obtain ⟨-, r, -, hr, -, -⟩ := Descrypt.layout_describes.shape hh
    cases hr
  · rw [accepts_iff hm, List.prefix_nil] at ha
    exact tag_ne_nil hm ha

/-- A marker selects its method, whatever follows it. -/
theorem ofSetting?_tag_append (hm : m ≠ descrypt) (rest : Bytes) :
    ofSetting? (m.tag ++ rest) = some m := by
  rw [ofSetting?_eq_some_iff, accepts_iff hm]
  exact List.prefix_append ..

/-- A hash selects the method of its setting. -/
theorem ofSetting?_of_hash {available : Room} (ha : m.accepts setting = true)
    (hh : m.hash available phrase setting = .ok h) : ofSetting? h = some m := by
  obtain ⟨-, r, digest, hr, -, rfl⟩ := m.layout_describes.shape hh
  exact ofSetting?_eq_some_iff.2 (accepts_head_append ha hr digest)

/-! ## Digests -/

/-- How many characters of a hash are digest. -/
def digestLength (m : Method) (hash : Bytes) : Nat :=
  match m with
  | yescrypt | keyedYescrypt _ | argon2 _ | scrypt => 43
  | bcrypt _ => 31
  | shaCrypt v => v.digestLength
  | sha1Crypt => 28
  | sunMd5 | md5Crypt => 22
  | ntHash => 32
  | bsdiCrypt => 11
  | descrypt => hash.length - 2

/-- Whether a character may occur in a digest. -/
def isDigestChar (m : Method) (c : UInt8) : Bool :=
  match m with
  | argon2 _ => Argon2Hash.isDigestChar c
  | _ => Field.isCryptChar c

theorem layout_isChar (m : Method) : m.layout.isChar = m.isDigestChar := by
  cases m <;> rfl

/-- The digest of a hash has the method's length. -/
theorem length_digest {r : m.layout.Reading} {digest : Bytes} (hd : m.layout.IsDigest digest) :
    digest.length = m.digestLength (m.layout.head r ++ digest) := by
  have hlen := hd.1
  cases m with
  | descrypt =>
    have htwo : ∀ salt, digest.length = (Base64.digits 2 salt ++ digest).length - 2 := by
      intro salt
      rw [List.length_append, Base64.length_digits, Nat.add_sub_cancel_left]
    exact htwo r
  | _ => exact beq_iff_eq.1 hlen

/-! ## Room -/

/-- The room of a call through a workspace. -/
def room : Room := ⟨384, Hashing.scratchSize⟩

/-- More room makes no difference to a hash, and too little is refused for that. -/
theorem hash_demands (m : Method) (phrase setting : Bytes) :
    Room.Demands fun room => m.hash room phrase setting := by
  cases m with
  | yescrypt => exact YescryptHash.hash_demands phrase setting
  | keyedYescrypt v => exact v.hash_demands phrase setting
  | bcrypt v => exact Bcrypt.hash_demands phrase setting
  | argon2 v => exact Argon2Hash.hash_demands v phrase setting
  | scrypt => exact ScryptHash.hash_demands phrase setting
  | shaCrypt v => exact ShaCrypt.hash_demands v phrase setting
  | sha1Crypt => exact Sha1Crypt.hash_demands phrase setting
  | sunMd5 => exact SunMd5.hash_demands phrase setting
  | md5Crypt => exact Md5Crypt.hash_demands phrase setting
  | ntHash => exact NtHash.hash_demands phrase setting
  | bsdiCrypt => exact BsdiCrypt.hash_demands phrase setting
  | descrypt => exact Descrypt.hash_demands phrase setting

/-- A hash leaves as much room for hashing under it as its setting did. With scrypt it need not: the
    bytes that scrypt asks for grow with the setting, of which it repeats any length. -/
theorem sizing_hash (hm : m ≠ scrypt) (hh : m.hash room phrase setting = .ok h) :
    m.layout.sizing room phrase.length h.length =
      m.layout.sizing room phrase.length setting.length := by
  cases m with
  | yescrypt => exact YescryptHash.sizing_hash hh (by decide)
  | keyedYescrypt v => exact YescryptHash.Keyed.sizing_hash hh (by decide)
  | descrypt => exact Descrypt.sizing_hash hh
  | scrypt => exact absurd rfl hm
  | _ => rfl

/-- With every method the hash leaves as much room as a setting of moderate length. -/
theorem sizing_hash_of_length (hlen : setting.length + 1 ≤ 296)
    (hh : m.hash room phrase setting = .ok h) :
    m.layout.sizing room phrase.length h.length =
      m.layout.sizing room phrase.length setting.length := by
  by_cases hm : m = scrypt
  · subst hm
    apply ScryptHash.sizing_hash hh
    show _ ≤ 384
    omega
  · exact sizing_hash hm hh

/-! ## Fresh settings -/

/-- The fresh settings of every method are fit for use, except that the salts of yescrypt and of its
    GOST variant may be too long. -/
theorem usable_of_generate (hy : m ≠ yescrypt) (hg : m ≠ keyedYescrypt .gost)
    {capacity count : Nat} {random : Bytes} (hcapacity : capacity ≤ 192)
    (h : m.generate capacity count random = .ok setting) :
    m.layout.Usable m.hash room setting ∧ m.accepts setting = true := by
  by_cases hm : m = descrypt
  · subst hm
    obtain ⟨hu, c, d, rfl, hc, hd⟩ := Descrypt.usable_of_generate h
    exact ⟨hu, isUnmarked_cons hc hd []⟩
  · rw [accepts_iff hm]
    cases m with
    | yescrypt => exact absurd rfl hy
    | keyedYescrypt v =>
      cases v with
      | gost => exact absurd rfl hg
      | sm3 => exact YescryptHash.Keyed.usable_of_generate h hcapacity
    | bcrypt v => exact Bcrypt.usable_of_generate h
    | argon2 v => exact Argon2Hash.usable_of_generate h
    | scrypt => exact ScryptHash.usable_of_generate h hcapacity
    | shaCrypt v => exact ShaCrypt.usable_of_generate h
    | sha1Crypt => exact Sha1Crypt.usable_of_generate h
    | sunMd5 => exact SunMd5.usable_of_generate h
    | md5Crypt => exact Md5Crypt.usable_of_generate h
    | ntHash =>
      replace h : NtHash.generate capacity count random = .ok setting := h
      exact NtHash.usable_of_generate h
    | bsdiCrypt => exact BsdiCrypt.usable_of_generate h
    | descrypt => exact absurd rfl hm

theorem hasForbidden_of_generate {capacity count : Nat} {random : Bytes}
    (hcapacity : capacity ≤ 192) (h : m.generate capacity count random = .ok setting) :
    Setting.hasForbidden setting = false := by
  by_cases hy : m = yescrypt
  · subst hy
    exact YescryptHash.hasForbidden_of_generateWith (by decide) h
  · by_cases hg : m = keyedYescrypt .gost
    · subst hg
      exact YescryptHash.hasForbidden_of_generateWith (by decide) h
    · exact (usable_of_generate hy hg hcapacity h).1.hasForbidden

/-- A fresh setting of any length has no forbidden characters and starts with its marker. -/
theorem tag_prefix_of_generate (hm : m ≠ descrypt) {capacity count : Nat} {random : Bytes}
    (h : m.generate capacity count random = .ok setting) :
    Setting.hasForbidden setting = false ∧ m.tag <+: setting := by
  cases m with
  | yescrypt => exact YescryptHash.clean_of_generateWith (by decide) h
  | keyedYescrypt v => exact YescryptHash.clean_of_generateWith v.hasForbidden_tag h
  | bcrypt v => exact (Bcrypt.usable_of_generate h).imp_left (·.hasForbidden)
  | argon2 v => exact (Argon2Hash.usable_of_generate h).imp_left (·.hasForbidden)
  | scrypt => exact ScryptHash.clean_of_generate h
  | shaCrypt v => exact (ShaCrypt.usable_of_generate h).imp_left (·.hasForbidden)
  | sha1Crypt => exact (Sha1Crypt.usable_of_generate h).imp_left (·.hasForbidden)
  | sunMd5 => exact (SunMd5.usable_of_generate h).imp_left (·.hasForbidden)
  | md5Crypt => exact (Md5Crypt.usable_of_generate h).imp_left (·.hasForbidden)
  | ntHash =>
    replace h : NtHash.generate capacity count random = .ok setting := h
    exact (NtHash.usable_of_generate h).imp_left (·.hasForbidden)
  | bsdiCrypt => exact (BsdiCrypt.usable_of_generate h).imp_left (·.hasForbidden)
  | descrypt => exact absurd rfl hm

/-- A fresh setting has no forbidden characters, is not empty and selects its method. -/
theorem ofSetting?_of_generate {capacity count : Nat} {random : Bytes}
    (h : m.generate capacity count random = .ok setting) :
    Setting.hasForbidden setting = false ∧ setting ≠ [] ∧ ofSetting? setting = some m := by
  rw [ofSetting?_eq_some_iff]
  by_cases hm : m = descrypt
  · subst hm
    obtain ⟨hu, c, d, rfl, hc, hd⟩ := Descrypt.usable_of_generate h
    exact ⟨hu.hasForbidden, List.cons_ne_nil _ _, isUnmarked_cons hc hd []⟩
  · obtain ⟨hclean, htag⟩ := tag_prefix_of_generate hm h
    refine ⟨hclean, ?_, (accepts_iff hm).2 htag⟩
    rintro rfl
    exact tag_ne_nil hm (List.prefix_nil.1 htag)

/-- A fresh setting fits the area that it is made for, so storing it there does not fail. -/
theorem generate_fitting (m : Method) (capacity count : Nat) (random : Bytes) :
    Room.Fitting capacity (m.generate capacity count random) := by
  cases m with
  | yescrypt => exact YescryptHash.generateWith_fitting _ capacity count random
  | keyedYescrypt v =>
    exact YescryptHash.generateWith_fitting _ capacity count (v.saltBytes random)
  | bcrypt v => exact Bcrypt.generate_fitting v capacity count random
  | argon2 v => exact Argon2Hash.generate_fitting v capacity count random
  | scrypt => exact ScryptHash.generate_fitting capacity count random
  | shaCrypt v => exact (ShaCrypt.fresh v).generate_fitting capacity count random
  | sha1Crypt => exact Sha1Crypt.generate_fitting capacity count random
  | sunMd5 => exact SunMd5.generate_fitting capacity count random
  | md5Crypt => exact Md5Crypt.generate_fitting capacity count random
  | ntHash => exact NtHash.generate_fitting capacity count random
  | bsdiCrypt => exact BsdiCrypt.generate_fitting capacity count random
  | descrypt => exact Descrypt.generate_fitting capacity count random

/-- The scheme of a method whose fresh salts take the room that there is. -/
def roundsSalt? : Method → Option RoundsSalt
  | md5Crypt => some Md5Crypt.fresh
  | shaCrypt v => some (ShaCrypt.fresh v)
  | _ => none

/-- To the other methods more room makes no difference, and too little is refused. -/
theorem generate_demands (hm : m.roundsSalt? = none) (count : Nat) (random : Bytes) :
    Room.Demands fun room => m.generate room.output count random := by
  cases m with
  | yescrypt => exact YescryptHash.generateWith_demands _ count random
  | keyedYescrypt v => exact YescryptHash.generateWith_demands _ count (v.saltBytes random)
  | bcrypt v => exact Bcrypt.generate_demands v count random
  | argon2 v => exact Argon2Hash.generate_demands v count random
  | scrypt => exact ScryptHash.generate_demands count random
  | shaCrypt v => cases hm
  | sha1Crypt => exact Sha1Crypt.generate_demands count random
  | sunMd5 => exact SunMd5.generate_demands count random
  | md5Crypt => cases hm
  | ntHash => exact NtHash.generate_demands count random
  | bsdiCrypt => exact BsdiCrypt.generate_demands count random
  | descrypt => exact Descrypt.generate_demands count random

/-- With more room there is a fresh setting as well: the same, or one that adds to the salt. -/
theorem generate_of_le {capacity capacity' count : Nat} {random : Bytes}
    (hle : capacity ≤ capacity') (h : m.generate capacity count random = .ok setting) :
    m.generate capacity' count random = .ok setting ∨
      ∃ scheme longer, m.roundsSalt? = some scheme ∧
        m.generate capacity' count random = .ok longer ∧
        scheme.AddsGroups count setting longer := by
  cases hm : m.roundsSalt? with
  | none =>
    have hroom : (⟨capacity, 0⟩ : Room) ≤ ⟨capacity', 0⟩ := ⟨hle, Nat.le_refl 0⟩
    refine .inl ((generate_demands hm count random).eq_ok_of_le ?_ hroom)
    exact h
  | some scheme =>
    right
    cases m with
    | md5Crypt =>
      cases hm
      obtain ⟨longer, hlonger, hadds⟩ := Md5Crypt.generate_groups hle h
      exact ⟨_, longer, rfl, hlonger, hadds⟩
    | shaCrypt v =>
      cases hm
      obtain ⟨longer, hlonger, hadds⟩ := RoundsSalt.generate_groups hle h
      exact ⟨_, longer, rfl, hlonger, hadds⟩
    | _ => cases hm

end Method

end PassHash
