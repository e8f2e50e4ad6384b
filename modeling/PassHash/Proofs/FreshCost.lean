import PassHash.Method
import PassHash.Proofs.Scheme.Argon2Hash
import PassHash.Proofs.Scheme.Bcrypt
import PassHash.Proofs.Scheme.BsdiCrypt
import PassHash.Proofs.Scheme.ScryptHash
import PassHash.Proofs.Scheme.Sha1Crypt
import PassHash.Proofs.Scheme.ShaCrypt

/-!
# Costs of Fresh Settings

A fresh setting states the cost that was requested and a salt from the random bytes. Each scheme
writes its cost in a form of its own: two decimal digits, a field that is left out for the default,
a number less a random part of it, or characters that stand for six bits. What the parser of the
scheme reads from the setting is that cost and that salt, after the scheme's default and bounds.

## Main statements

- `ScryptHash.cost_generate`, `BsdiCrypt.parse?_generate_eq`, `ShaCrypt.rounds_generate`,
  `Sha1Crypt.iterations_generate`: the cost as a number, for a scheme that does not write it plainly
- `Method.cost_of_generate`: cost and salt of a fresh setting, for every scheme with a cost
-/

namespace PassHash

variable {count : Nat} {random setting : Bytes}

/-! ## Costs as numbers -/

/-- The cost of a fresh setting, whose character is the binary logarithm of `N`. -/
theorem ScryptHash.cost_generate {capacity : Nat}
    (hg : generate capacity count random = .ok setting) :
    ∃ s, parse? setting = some s ∧
      s.cost = ⟨2 ^ ((if count = 0 then 7 else count) + 7), 32, 1⟩ ∧
      s.salt = Base64.encodeLow random := by
  refine ⟨_, parse?_generate hg, ?_, rfl⟩
  show (⟨1 <<< _, 32, 1⟩ : Scrypt.Cost) = _
  rw [Nat.one_shiftLeft]

/-- The salt of a fresh setting, whose characters stand for six bits, the lowest ones first. -/
theorem BsdiCrypt.parse?_generate_eq {capacity : Nat}
    (hg : generate capacity count random = .ok setting) :
    ∃ a b c rest, random = a :: b :: c :: rest ∧
      parse? setting = some ⟨(if count = 0 then 725 else min count (2 ^ 24 - 1)) ||| 1,
        a.toNat + 256 * b.toNat + 65536 * c.toNat⟩ := by
  obtain ⟨a, b, c, rest, hrandom, hread⟩ := parse?_generate hg
  refine ⟨a, b, c, rest, hrandom, ?_⟩
  have hsalt : Base64.bigEndian [c, b, a] = a.toNat + 256 * b.toNat + 65536 * c.toNat := by
    simp only [Base64.bigEndian, List.foldl_cons, List.foldl_nil]
    omega
  rw [hread, hsalt]
  rfl

/-- The rounds of a fresh setting, stated or not. -/
theorem ShaCrypt.rounds_generate {v : Variant} {capacity : Nat} (hcapacity : 64 ≤ capacity)
    (hg : generate v capacity count random = .ok setting) :
    ∃ s, parse? v setting = some s ∧
      s.rounds = max 1000 (min (if count = 0 then 5000 else count) 999999999) ∧
      (Bytes.ascii "rounds=" <+: setting.drop v.tag.length ↔ s.rounds ≠ 5000) ∧
      s.salt = (fresh v).salting.write ((fresh v).salting.part random) := by
  refine ⟨_, parse?_generate hcapacity hg, ?_, ?_, rfl⟩
  · rw [rounds_freshRounds]
    rfl
  · rw [rounds_freshRounds]
    exact rounds_prefix_drop_iff hg

/-- The iterations of a fresh setting: less than a quarter is taken from the number. -/
theorem Sha1Crypt.iterations_generate {capacity : Nat}
    (hg : generate capacity count random = .ok setting) :
    let most := if count = 0 then 262144 else max 4 (min count (2 ^ 32 - 1))
    ∃ s, parse? setting = some s ∧ most - most / 4 < s.iterations ∧ s.iterations ≤ most ∧
      s.salt = salting.write (salting.part random) := by
  obtain ⟨hleast, hmost⟩ :=
    freshIterations_bounds count (Base64.bigEndian (random.take 4).reverse)
  exact ⟨_, parse?_generate hg, hleast, hmost, rfl⟩

/-! ## All schemes -/

namespace Method

/-- What is read from a fresh setting is the requested cost, within the bounds of the scheme or as
    its default, and the salt from the random bytes. -/
theorem cost_of_generate (count : Nat) (random setting : Bytes) :
    (∀ v, (bcrypt v).generate 192 count random = .ok setting →
      Bcrypt.parse? setting = some ⟨v, if count = 0 then 5 else count, random.take 16⟩) ∧
    (∀ v, (shaCrypt v).generate 192 count random = .ok setting →
      ∃ s, ShaCrypt.parse? v setting = some s ∧
        s.rounds = max 1000 (min (if count = 0 then 5000 else count) 999999999) ∧
        (Bytes.ascii "rounds=" <+: setting.drop v.tag.length ↔ s.rounds ≠ 5000) ∧
        s.salt = (ShaCrypt.fresh v).salting.write ((ShaCrypt.fresh v).salting.part random)) ∧
    (sha1Crypt.generate 192 count random = .ok setting →
      let most := if count = 0 then 262144 else max 4 (min count (2 ^ 32 - 1))
      ∃ s, Sha1Crypt.parse? setting = some s ∧
        most - most / 4 < s.iterations ∧ s.iterations ≤ most ∧
        s.salt = Sha1Crypt.salting.write (Sha1Crypt.salting.part random)) ∧
    (bsdiCrypt.generate 192 count random = .ok setting →
      ∃ a b c rest, random = a :: b :: c :: rest ∧
        BsdiCrypt.parse? setting = some ⟨(if count = 0 then 725 else min count (2 ^ 24 - 1)) ||| 1,
          a.toNat + 256 * b.toNat + 65536 * c.toNat⟩) ∧
    (scrypt.generate 192 count random = .ok setting →
      ∃ s, ScryptHash.parse? setting = some s ∧
        s.cost = ⟨2 ^ ((if count = 0 then 7 else count) + 7), 32, 1⟩ ∧
        s.salt = Base64.encodeLow random) ∧
    ∀ v, (argon2 v).generate 192 count random = .ok setting →
      Argon2Hash.parse? v setting =
        some ⟨19, ⟨4096, if count = 0 then 3 else count, 1⟩, random⟩ := by
  refine ⟨?bcrypt, ?shaCrypt, ?sha1Crypt, ?bsdiCrypt, ?scrypt, ?argon2⟩
  case bcrypt => exact fun v hg => Bcrypt.parse?_generate hg
  case shaCrypt => exact fun v hg => ShaCrypt.rounds_generate (by decide) hg
  case sha1Crypt => exact fun hg => Sha1Crypt.iterations_generate hg
  case bsdiCrypt => exact fun hg => BsdiCrypt.parse?_generate_eq hg
  case scrypt => exact fun hg => ScryptHash.cost_generate hg
  case argon2 => exact fun v hg => Argon2Hash.parse?_generate hg

/-- Settings for the default cost, for one beyond the bound of its scheme and for an even one. -/
theorem cost_of_generate_bounds :
    Bcrypt.parse? (Bytes.ascii "$2y$05$KBCwKxOzLha2MUDgW0PjXe") =
        some ⟨.y, 5, Bytes.ascii "0123456789abcdef"⟩ ∧
      (∃ s, ShaCrypt.parse? .sm3 (Bytes.ascii "$sm3$rounds=999999999$k2XAnEHBqQ1Ct2aM") = some s ∧
        s.rounds = 999999999) ∧
      (∃ s, Sha1Crypt.parse? (Bytes.ascii "$sha1$249552$qI1BtUnBX7KM$") = some s ∧
        262144 - 262144 / 4 < s.iterations ∧ s.iterations ≤ 262144) ∧
      (∃ s, BsdiCrypt.parse? (Bytes.ascii "_dD..k2XA") = some s ∧ s.count = 1001) ∧
      (∃ s, ScryptHash.parse? (Bytes.ascii "$7$BU..../....k2XAnEHBqQ1Ct2aMXFKNa/") = some s ∧
        s.cost = ⟨2 ^ 13, 32, 1⟩) ∧
      Argon2Hash.parse? .id (Bytes.ascii "$argon2id$v=19$m=4096,t=3,p=1$MDEyMzQ1Njc4OWFiY2RlZg$") =
        some ⟨19, ⟨4096, 3, 1⟩, Bytes.ascii "0123456789abcdef"⟩ := by
  refine ⟨?bcrypt, ?shaCrypt, ?sha1Crypt, ?bsdiCrypt, ?scrypt, ?argon2⟩
  case bcrypt =>
    obtain ⟨hread, -⟩ := cost_of_generate 0 (Bytes.ascii "0123456789abcdef")
      (Bytes.ascii "$2y$05$KBCwKxOzLha2MUDgW0PjXe")
    exact hread .y (by decide +kernel)
  case shaCrypt =>
    obtain ⟨-, hread, -⟩ := cost_of_generate (2 ^ 32) (Bytes.ascii "0123456789abcdef")
      (Bytes.ascii "$sm3$rounds=999999999$k2XAnEHBqQ1Ct2aM")
    obtain ⟨s, hs, hrounds, -⟩ := hread .sm3 (by decide +kernel)
    exact ⟨s, hs, hrounds⟩
  case sha1Crypt =>
    obtain ⟨-, -, hread, -⟩ := cost_of_generate 0 (Bytes.ascii "0123456789abcdef")
      (Bytes.ascii "$sha1$249552$qI1BtUnBX7KM$")
    obtain ⟨s, hs, hleast, hmost, -⟩ := hread (by decide +kernel)
    exact ⟨s, hs, hleast, hmost⟩
  case bsdiCrypt =>
    obtain ⟨-, -, -, hread, -⟩ := cost_of_generate 1000 (Bytes.ascii "0123456789abcdef")
      (Bytes.ascii "_dD..k2XA")
    obtain ⟨_, _, _, _, -, hs⟩ := hread (by decide +kernel)
    exact ⟨_, hs, rfl⟩
  case scrypt =>
    obtain ⟨-, -, -, -, hread, -⟩ := cost_of_generate 6 (Bytes.ascii "0123456789abcdef")
      (Bytes.ascii "$7$BU..../....k2XAnEHBqQ1Ct2aMXFKNa/")
    obtain ⟨s, hs, hcost, -⟩ := hread (by decide +kernel)
    exact ⟨s, hs, hcost⟩
  case argon2 =>
    obtain ⟨-, -, -, -, -, hread⟩ := cost_of_generate 0 (Bytes.ascii "0123456789abcdef")
      (Bytes.ascii "$argon2id$v=19$m=4096,t=3,p=1$MDEyMzQ1Njc4OWFiY2RlZg$")
    exact hread .id (by decide +kernel)

end Method

end PassHash
