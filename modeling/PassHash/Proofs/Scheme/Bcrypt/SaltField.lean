import PassHash.Proofs.Base64.ByteSteps
import PassHash.Proofs.Scheme.Bcrypt

/-!
# The Salt in a Hash of Bcrypt

A salt of sixteen bytes takes 22 characters, the last of which has four bits to spare. A setting may
have any of them set, and they are not read. A hash has them cleared, so it carries the one spelling
of the salt that it was made with, and two hashes carry the same salt exactly if they were made with
the same one.

## Main statements

- `Bcrypt.saltField_eq`: the salt in a hash
- `Bcrypt.salt_canonical`: writing and reading salts, and the salts of hashes
-/

namespace PassHash

namespace Bcrypt

open Base64

/-- The characters of the salt in a hash. -/
def saltField (h : Bytes) : Bytes := (h.drop 7).take saltLength

/-! ## Fields -/

theorem saltField_text_append {s : Setting} (hs : s.Fits) (rest : Bytes) :
    saltField (s.text ++ rest) = encodeHigh .bcrypt s.salt := by
  rw [saltField, Setting.text, ← Setting.lead_append, List.append_assoc,
    List.drop_left' (length_lead hs), List.take_left' (length_salt_text hs)]

/-- The salt in a hash is the one spelling of the salt that the setting is read with. -/
theorem saltField_eq {room : Room} {phrase setting h : Bytes} {s : Setting}
    (hs : parse? setting = some s) (hh : hash room phrase setting = .ok h) :
    saltField h = encodeHigh .bcrypt s.salt := by
  obtain ⟨-, -, s', hs', -, rfl⟩ := hash_eq_ok_iff.1 hh
  rw [hs, Option.some.injEq] at hs'
  subst hs'
  obtain ⟨-, -, hfits, -⟩ := parse?_eq_some hs
  exact saltField_text_append hfits _

/-- Hashes carry the same salt exactly if their settings are read with the same one. -/
theorem saltField_eq_iff {room : Room} {phrase setting setting' h h' : Bytes} {s s' : Setting}
    (hs : parse? setting = some s) (hs' : parse? setting' = some s')
    (hh : hash room phrase setting = .ok h) (hh' : hash room phrase setting' = .ok h') :
    saltField h = saltField h' ↔ s.salt = s'.salt := by
  rw [saltField_eq hs hh, saltField_eq hs' hh']
  exact (encodeHigh_injective .bcrypt).eq_iff

/-! ## Main result -/

/-- A byte string is read back from its characters, whatever follows them. 22 characters that are
    read are written again with a canonical last character. So a hash always has the one spelling
    of the salt that it was made with, and for every phrase the salts in two hashes of one variant
    and cost are the same exactly if their settings are read with the same salt, which is when the
    hashes are the same altogether. Byte by byte the same is written and read as by the numbers of
    the groups. -/
theorem salt_canonical (room : Room) (phrase : Bytes) :
    (∀ b rest, ∃ text, ByteSteps.encode? b = some text ∧
      ByteSteps.decode? b.length (text ++ rest) = some b) ∧
    (∀ s b, s.length = saltLength → ByteSteps.decode? 16 s = some b →
      ∃ c last, s[21]? = some c ∧ ByteSteps.tail? c = some last ∧
        ByteSteps.encode? b = some (s.take 21 ++ [last])) ∧
    ((∀ b, ByteSteps.encode? b = some (encodeHigh .bcrypt b)) ∧
      (∀ n s, ByteSteps.decode? n s = decodeExactly? .bcrypt n s) ∧
      ∀ c, ByteSteps.tail? c = canonicalTail? .bcrypt c) ∧
    (∀ setting h, hash room phrase setting = .ok h →
      ∃ s, parse? setting = some s ∧ ByteSteps.encode? s.salt = some (saltField h)) ∧
    (∀ setting setting' s s', parse? setting = some s → parse? setting' = some s' →
      s.variant = s'.variant → s.cost = s'.cost →
      hashLength + 1 ≤ room.output → 144 ≤ room.scratch →
        ∃ h h', hash room phrase setting = .ok h ∧ hash room phrase setting' = .ok h' ∧
          (saltField h = saltField h' ↔ s.salt = s'.salt) ∧ (h = h' ↔ s.salt = s'.salt)) := by
  refine ⟨fun b rest => ⟨_, ByteSteps.encode?_eq b, ByteSteps.decode?_encodeHigh_append b rest⟩,
    ?again, ⟨ByteSteps.encode?_eq, ByteSteps.decode?_eq, ByteSteps.tail?_eq⟩, ?field, ?same⟩
  case again =>
    intro s b hlen hread
    rw [ByteSteps.decode?_eq] at hread
    obtain ⟨c, last, hc, hlast, hcode⟩ := encodeHigh_take_of_decodeExactly? (k := 5) hlen hread
    exact ⟨c, last, hc, (ByteSteps.tail?_eq c).trans hlast,
      (ByteSteps.encode?_eq b).trans (congrArg some hcode)⟩
  case field =>
    intro setting h hh
    obtain ⟨-, -, s, hs, -⟩ := hash_eq_ok_iff.1 hh
    exact ⟨s, hs, by rw [ByteSteps.encode?_eq, saltField_eq hs hh]⟩
  case same =>
    intro setting setting' s s' hs hs' hvariant hcost hout hwork
    have hh := hash_of_parse? hout hwork hs phrase
    have hh' := hash_of_parse? hout hwork hs' phrase
    have hfield := saltField_eq_iff hs hs' hh hh'
    refine ⟨_, _, hh, hh', hfield, fun heq => hfield.1 (congrArg saltField heq), fun hsalt => ?_⟩
    -- with the same salt all parts of the settings are the same
    have hparts : s = s' := by
      cases s
      cases s'
      simp_all
    rw [hparts]

/-- A last character with a spare bit set is read like the one without, so both settings have the
    same hash, in which the bit is cleared. -/
theorem salt_canonical_spare :
    (∃ c last, (Bytes.ascii "UBVLHeMpJ/QQCv3XqJx8zP")[21]? = some c ∧
      ByteSteps.tail? c = some last ∧
      ByteSteps.encode? [0x58, 0x35, 0xcd, 0x26, 0x03, 0xab, 0x2c, 0x14, 0x92, 0x13, 0x1e, 0x59,
        0xb0, 0xbc, 0xfe, 0xd5] = some ((Bytes.ascii "UBVLHeMpJ/QQCv3XqJx8zP").take 21 ++ [last])) ∧
    ∃ h h', hash ⟨384, 256⟩ (Bytes.ascii "phrase") (Bytes.ascii "$2b$05$UBVLHeMpJ/QQCv3XqJx8zO") =
        .ok h ∧
      hash ⟨384, 256⟩ (Bytes.ascii "phrase") (Bytes.ascii "$2b$05$UBVLHeMpJ/QQCv3XqJx8zP") = .ok h' ∧
      ByteSteps.encode? [0x58, 0x35, 0xcd, 0x26, 0x03, 0xab, 0x2c, 0x14, 0x92, 0x13, 0x1e, 0x59,
        0xb0, 0xbc, 0xfe, 0xd5] = some (saltField h') ∧ h = h' := by
  have hread : parse? (Bytes.ascii "$2b$05$UBVLHeMpJ/QQCv3XqJx8zO") = some ⟨.b, 5, [0x58, 0x35, 0xcd,
      0x26, 0x03, 0xab, 0x2c, 0x14, 0x92, 0x13, 0x1e, 0x59, 0xb0, 0xbc, 0xfe, 0xd5]⟩ := by
    decide
  have hspare : parse? (Bytes.ascii "$2b$05$UBVLHeMpJ/QQCv3XqJx8zP") = some ⟨.b, 5, [0x58, 0x35, 0xcd,
      0x26, 0x03, 0xab, 0x2c, 0x14, 0x92, 0x13, 0x1e, 0x59, 0xb0, 0xbc, 0xfe, 0xd5]⟩ := by
    decide
  obtain ⟨-, hagain, -, hfield, hsame⟩ := salt_canonical ⟨384, 256⟩ (Bytes.ascii "phrase")
  obtain ⟨h, h', hh, hh', -, hiff⟩ :=
    hsame _ _ _ _ hread hspare rfl rfl (by decide) (by decide)
  obtain ⟨s, hs, hcode⟩ := hfield _ _ hh'
  rw [hspare, Option.some.injEq] at hs
  subst hs
  exact ⟨hagain _ _ (by decide) (by decide), h, h', hh, hh', hcode, hiff.2 rfl⟩

end Bcrypt

end PassHash
