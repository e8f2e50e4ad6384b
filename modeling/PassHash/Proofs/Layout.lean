import PassHash.Proofs.Characters

/-!
# Layouts of Hashes

Every hash is a head, which says what the phrase was hashed under, and a digest after it. The head
is a text of its own: it is made from what the scheme reads from a setting, which may be spelled
otherwise there. Because a scheme reads the same from a head with any digest after it, a hash serves
as a setting, and its digest does not matter then.

## Contents

- `Layout`: what a scheme reads, the head it writes, and which texts pass for digests
- `Layout.Describes`: a hash function keeps to a layout
- `Layout.Usable`: a setting under which every phrase has a hash that starts with it

## Main statements

- `Layout.Describes.rehash`: a phrase hashed under its own hash gives the hash again
- `Layout.Describes.hash_congr_digest`: the digest at the end of a setting does not matter
-/

namespace PassHash

/-- How the hashes of a scheme are laid out, with the laws that make them readable as settings. -/
structure Layout where
  /-- What is read from a setting. -/
  Reading : Type
  read? : Bytes → Option Reading
  /-- The text ahead of the digest. -/
  head : Reading → Bytes
  /-- Whether a digest may have so many characters. -/
  isLength : Nat → Bool
  /-- Whether a digest may contain a character. -/
  isChar : UInt8 → Bool
  /-- What depends on the lengths of a phrase and a setting, apart from what is read. -/
  sizing : Room → (phrase setting : Nat) → Bool
  isLength_zero : isLength 0 = false
  isForbidden_of_isChar : ∀ {c}, isChar c = true → Setting.isForbidden c = false
  /-- A head is read again ahead of any digest. -/
  reread : ∀ {setting r digest}, read? setting = some r → isLength digest.length = true →
    (∀ c ∈ digest, isChar c = true) → read? (head r ++ digest) = some r
  /-- A head brings in no forbidden characters. -/
  hasForbidden_head : ∀ {setting r}, read? setting = some r →
    Setting.hasForbidden setting = false → Setting.hasForbidden (head r) = false

namespace Layout

/-- Whether a text passes for a digest. -/
def IsDigest (l : Layout) (digest : Bytes) : Prop :=
  l.isLength digest.length = true ∧ ∀ c ∈ digest, l.isChar c = true

variable {l : Layout} {hash : Room → (phrase setting : Bytes) → Except Failure Bytes}

theorem IsDigest.ne_nil {digest : Bytes} (h : l.IsDigest digest) : digest ≠ [] := by
  rintro rfl
  have h0 := h.1
  rw [List.length_nil, l.isLength_zero] at h0
  cases h0

theorem IsDigest.hasForbidden {digest : Bytes} (h : l.IsDigest digest) :
    Setting.hasForbidden digest = false :=
  Setting.hasForbidden_eq_false_iff.2 fun c hc => l.isForbidden_of_isChar (h.2 c hc)

theorem read?_head_append {setting digest : Bytes} {r : l.Reading}
    (hr : l.read? setting = some r) (hd : l.IsDigest digest) :
    l.read? (l.head r ++ digest) = some r :=
  l.reread hr hd.1 hd.2

/-! ## Hash functions -/

/-- What a hash function that keeps to a layout does: its hashes are heads with digests, fit, and
    depend on what is read from the setting. -/
structure Describes (l : Layout) (hash : Room → (phrase setting : Bytes) → Except Failure Bytes) :
    Prop where
  shape : ∀ {room phrase setting h}, hash room phrase setting = .ok h →
    h.length + 1 ≤ room.output ∧
      ∃ r digest, l.read? setting = some r ∧ l.IsDigest digest ∧ h = l.head r ++ digest
  congr : ∀ {room phrase setting setting' r}, l.read? setting = some r →
    l.read? setting' = some r →
    l.sizing room phrase.length setting.length = l.sizing room phrase.length setting'.length →
    hash room phrase setting = hash room phrase setting'

namespace Describes

variable {room : Room} {phrase setting h : Bytes}

/-- A phrase hashed under its own hash gives the hash again, if the hash and the setting do not
    differ in what depends on their lengths. -/
theorem rehash (hl : l.Describes hash) (hh : hash room phrase setting = .ok h)
    (hs : l.sizing room phrase.length h.length = l.sizing room phrase.length setting.length) :
    hash room phrase h = .ok h := by
  obtain ⟨-, r, digest, hr, hd, rfl⟩ := hl.shape hh
  -- the hash and the setting are read alike
  rw [← hh]
  exact hl.congr (read?_head_append hr hd) hr hs

/-- Two digests of the same length after a head make no difference to any phrase. -/
theorem hash_congr_digest (hl : l.Describes hash) {r : l.Reading} {digest digest' : Bytes}
    (hr : l.read? setting = some r) (hd : l.IsDigest digest) (hd' : l.IsDigest digest')
    (hlen : digest'.length = digest.length) :
    hash room phrase (l.head r ++ digest') = hash room phrase (l.head r ++ digest) := by
  apply hl.congr (read?_head_append hr hd') (read?_head_append hr hd)
  rw [List.length_append, List.length_append, hlen]

theorem hasForbidden (hl : l.Describes hash) (hs : Setting.hasForbidden setting = false)
    (hh : hash room phrase setting = .ok h) : Setting.hasForbidden h = false := by
  obtain ⟨-, r, digest, hr, hd, rfl⟩ := hl.shape hh
  rw [Setting.hasForbidden_append, l.hasForbidden_head hr hs, hd.hasForbidden, Bool.or_false]

theorem ne_nil (hl : l.Describes hash) (hh : hash room phrase setting = .ok h) : h ≠ [] := by
  obtain ⟨-, r, digest, -, hd, rfl⟩ := hl.shape hh
  exact List.append_ne_nil_of_right_ne_nil _ hd.ne_nil

end Describes

/-! ## Settings for use -/

/-- What makes a setting fit for use: it starts the head of every hash under it, has no forbidden
    characters, and every phrase has a hash under it. -/
structure Usable (l : Layout) (hash : Room → (phrase setting : Bytes) → Except Failure Bytes)
    (room : Room) (setting : Bytes) : Prop where
  reads : ∃ r, l.read? setting = some r ∧ setting <+: l.head r
  hasForbidden : Setting.hasForbidden setting = false
  hashes : ∀ {phrase : Bytes}, phrase.length ≤ Hashing.maxPhrase →
    ∃ h, hash room phrase setting = .ok h

/-- A hash under a setting fit for use starts with the setting. -/
theorem Usable.prefix_hash {room : Room} {phrase setting h : Bytes}
    (hu : l.Usable hash room setting) (hl : l.Describes hash)
    (hh : hash room phrase setting = .ok h) : setting <+: h := by
  obtain ⟨-, r, digest, hr, -, rfl⟩ := hl.shape hh
  obtain ⟨r', hr', hpre⟩ := hu.reads
  rw [hr, Option.some.injEq] at hr'
  subst hr'
  exact hpre.trans (List.prefix_append ..)

end Layout

end PassHash
