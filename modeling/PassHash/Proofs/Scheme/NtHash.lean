import PassHash.Proofs.Checks
import PassHash.Proofs.Layout
import PassHash.Scheme.NtHash

/-!
# Settings of the NT Hash

There is nothing to read from a setting but the marker, so every setting with the marker stands for
every other.

## Main statements

- `NtHash.hash_eq_ok_iff`: when there is a hash, and which
- `NtHash.hash_demands`, `NtHash.generate_demands`: more room makes no difference, and too little is
  refused
- `NtHash.layout`, `NtHash.layout_describes`: the layout of hashes
- `NtHash.usable_of_generate`: the fresh setting is fit for use
-/

namespace PassHash

namespace NtHash

variable {room : Room} {phrase setting h : Bytes}

/-! ## Digests -/

theorem isCryptChar_of_mem_hexDigits {c d : UInt8} (h : d ∈ hexDigits c) :
    Field.isCryptChar d = true := by
  have hall : ∀ n < 16, Field.isCryptChar (Nat.digitChar n).toUInt8 = true := by decide
  have hc := c.toNat_lt
  simp only [hexDigits, List.mem_cons, List.not_mem_nil, or_false] at h
  rcases h with rfl | rfl
  · exact hall _ (by omega)
  · exact hall _ (by omega)

theorem isCryptChar_of_mem_digest {c : UInt8} (h : c ∈ digest phrase) :
    Field.isCryptChar c = true := by
  obtain ⟨byte, -, hc⟩ := List.mem_flatMap.1 h
  exact isCryptChar_of_mem_hexDigits hc

theorem length_flatMap_hexDigits (b : Bytes) : (b.flatMap hexDigits).length = 2 * b.length := by
  induction b with
  | nil => rfl
  | cons c b ih =>
    have hc : (hexDigits c).length = 2 := rfl
    rw [List.flatMap_cons, List.length_append, ih, hc, List.length_cons]
    omega

theorem length_digest (phrase : Bytes) : (digest phrase).length = 32 := by
  rw [digest, length_flatMap_hexDigits, Md4.length_digest]

/-- The digest of the empty phrase. -/
theorem digest_nil : digest [] = Bytes.ascii "31d6cfe0d16ae931b73c59d7e0c089c0" := rfl

/-! ## Hashing -/

theorem hash_eq_ok_iff : hash room phrase setting = .ok h ↔
    37 ≤ room.output ∧ 1040 ≤ room.scratch ∧ setting.startsWith tag = true ∧
      phrase.length ≤ maxPhrase ∧ h.length + 1 ≤ room.output ∧
      tag ++ [Field.dollar] ++ digest phrase = h := by
  have htag : tag.length = 3 := by decide
  simp only [hash, Checks.need_bind_eq_ok_iff, Checks.unlessInvalid_bind_eq_ok_iff,
    Checks.fit_eq_ok_iff, htag]
  rfl

theorem hash_demands (phrase setting : Bytes) :
    Room.Demands fun room => hash room phrase setting :=
  .bind (.output _) fun _ => .bind (.scratch _) fun _ =>
    .bind (.const _) fun _ => .bind (.const _) fun _ => .fit _

/-- The hash of the empty phrase. -/
theorem hash_nil (ho : 37 ≤ room.output) (hs : 1040 ≤ room.scratch) : hash room [] tag =
    .ok (Bytes.ascii "$3$$" ++ Bytes.ascii "31d6cfe0d16ae931b73c59d7e0c089c0") := by
  have hdigest : tag ++ [Field.dollar] ++ digest [] =
      Bytes.ascii "$3$$" ++ Bytes.ascii "31d6cfe0d16ae931b73c59d7e0c089c0" := by
    rw [digest_nil]
    rfl
  exact hash_eq_ok_iff.2 ⟨ho, hs, by decide, by decide, ho, hdigest⟩

theorem startsWith_tag_append (rest : Bytes) : (tag ++ rest).startsWith tag = true :=
  Bytes.startsWith_iff.2 ⟨rest, rfl⟩

/-- How many characters a digest has. -/
def digestLength : Nat := 32

/-- Nothing, and 32 characters of digest. -/
def layout : Layout where
  Reading := Unit
  read? setting := if setting.startsWith tag then some () else none
  head _ := tag ++ [Field.dollar]
  isLength n := n == digestLength
  isChar := Field.isCryptChar
  sizing _ _ _ := true
  isLength_zero := rfl
  isForbidden_of_isChar := Field.isForbidden_of_isCryptChar
  reread _ _ _ := by rw [List.append_assoc, startsWith_tag_append, if_pos rfl]
  hasForbidden_head _ _ := by decide

theorem read?_eq_some {r : layout.Reading} :
    layout.read? setting = some r ↔ setting.startsWith tag = true := by
  show (if setting.startsWith tag then some () else none) = some r ↔ _
  by_cases hs : setting.startsWith tag = true
  · rw [if_pos hs]
    exact ⟨fun _ => hs, fun _ => rfl⟩
  · rw [if_neg hs]
    exact ⟨fun h => (nomatch h), fun h => absurd h hs⟩

theorem layout_describes : layout.Describes hash where
  shape hh := by
    obtain ⟨-, -, hs, -, hfit, rfl⟩ := hash_eq_ok_iff.1 hh
    exact ⟨hfit, (), _, read?_eq_some.2 hs, ⟨beq_iff_eq.2 (length_digest _),
      fun c hc => isCryptChar_of_mem_digest hc⟩, rfl⟩
  congr hr hr' _ := by
    rw [read?_eq_some] at hr hr'
    simp only [hash, hr, hr']

/-! ## Fresh settings -/

theorem generate_demands (count : Nat) (random : Bytes) :
    Room.Demands fun room => generate room.output count random :=
  .bind (.output _) fun _ => .bind (.const _) fun _ => .fit _

theorem generate_fitting (capacity count : Nat) (random : Bytes) :
    Room.Fitting capacity (generate capacity count random) :=
  .bind fun _ => .bind fun _ => .fit _

theorem usable_of_generate {capacity count : Nat} {random : Bytes}
    (hg : generate capacity count random = .ok setting) :
    layout.Usable hash ⟨384, Hashing.scratchSize⟩ setting ∧ tag <+: setting := by
  simp only [generate, Checks.need_bind_eq_ok_iff, Checks.unlessInvalid_bind_eq_ok_iff,
    Room.fit_eq_ok_iff] at hg
  obtain ⟨-, -, -, rfl⟩ := hg
  have hstart : tag.startsWith tag = true := by decide
  refine ⟨?_, List.prefix_rfl⟩
  constructor
  case reads => exact ⟨(), read?_eq_some.2 hstart, List.prefix_append ..⟩
  case hasForbidden => decide
  case hashes =>
    intro phrase hp
    -- the scheme has a bound of its own for phrases, which is no tighter
    have hphrase : phrase.length ≤ maxPhrase := Nat.le_trans hp (by decide)
    refine ⟨_, hash_eq_ok_iff.2 ⟨by decide, by decide, hstart, hphrase, ?_, rfl⟩⟩
    rw [List.length_append, length_digest]
    decide

end NtHash

end PassHash
