import PassHash.Proofs.Base64.Lossless
import PassHash.Proofs.Method
import PassHash.Proofs.Scheme.Descrypt.Blocks

/-!
# Hashes and Their Final Digests

After its head a hash has the characters of the last digest that a scheme has computed, or of several
ones for the chained blocks of bigcrypt. All bytes of a digest are written, so under one setting two
phrases have the same hash exactly if they have the same final digests. Bcrypt is not among these
schemes, because it leaves out the last byte of its digest.

## Contents

- `Layout.Digests`: the final digests of a scheme, and how they are written
- `Method.digests?`: those of a method

## Main statements

- `Layout.Digests.Describes.eq_iff`: the same hashes have the same digests
- `Method.digests_describes`: the digests that a method writes
- `Method.hash_eq_iff_digests`: no digest is lost in a hash
-/

namespace PassHash

open Base64

/-! ## Digests of a scheme -/

/-- The final digests of a scheme with their size, and how each is written. -/
structure Layout.Digests (l : Layout) where
  size : Nat
  width : Nat
  encode : Bytes → Bytes
  /-- The digests of a phrase, under what is read from a setting and the length of the setting. -/
  of : l.Reading → (settingLength : Nat) → (phrase : Bytes) → List Bytes

namespace Layout.Digests

/-- One digest for a phrase, under what is read from a setting. -/
def single {l : Layout} (size width : Nat) (encode : Bytes → Bytes)
    (digest : l.Reading → Bytes → Bytes) : l.Digests :=
  ⟨size, width, encode, fun r _ phrase => [digest r phrase]⟩

variable {l : Layout} {hash : Room → (phrase setting : Bytes) → Except Failure Bytes}

/-- A hash function writes these digests behind the heads of its hashes. -/
structure Describes (d : l.Digests) (hash : Room → (phrase setting : Bytes) → Except Failure Bytes) :
    Prop where
  lossless : Lossless d.encode d.size d.width
  width_pos : 0 < d.width
  length_of_mem : ∀ {r n phrase digest}, digest ∈ d.of r n phrase → digest.length = d.size
  written : ∀ {room phrase setting h}, hash room phrase setting = .ok h →
    ∃ r, l.read? setting = some r ∧
      h = l.head r ++ (d.of r setting.length phrase).flatMap d.encode

/-- Under one setting, two phrases have the same hash exactly if they have the same digests. -/
theorem Describes.eq_iff {d : l.Digests} (hd : d.Describes hash) {room room' : Room}
    {phrase phrase' setting h h' : Bytes} (hh : hash room phrase setting = .ok h)
    (hh' : hash room' phrase' setting = .ok h') :
    ∃ r, l.read? setting = some r ∧
      h = l.head r ++ (d.of r setting.length phrase).flatMap d.encode ∧
      (h = h' ↔ d.of r setting.length phrase = d.of r setting.length phrase') := by
  obtain ⟨r, hr, rfl⟩ := hd.written hh
  obtain ⟨r', hr', rfl⟩ := hd.written hh'
  rw [hr, Option.some.injEq] at hr'
  subst hr'
  -- the head is the same, and digests of one size can be told apart
  exact ⟨r, hr, rfl, List.append_right_inj _ |>.trans <|
    hd.lossless.flatMap_eq_iff hd.width_pos (fun _ => hd.length_of_mem) fun _ => hd.length_of_mem⟩

theorem Describes.single {size width : Nat} {encode : Bytes → Bytes}
    {digest : l.Reading → Bytes → Bytes} (hlossless : Lossless encode size width)
    (hwidth : 0 < width) (hlength : ∀ r phrase, (digest r phrase).length = size)
    (hwritten : ∀ {room phrase setting h}, hash room phrase setting = .ok h →
      ∃ r, l.read? setting = some r ∧ l.head r ++ encode (digest r phrase) = h) :
    (Digests.single size width encode digest).Describes hash where
  lossless := hlossless
  width_pos := hwidth
  length_of_mem h := List.mem_singleton.1 h ▸ hlength ..
  written hh := by
    obtain ⟨r, hr, rfl⟩ := hwritten hh
    exact ⟨r, hr, by simp [Digests.single]⟩

end Layout.Digests

/-! ## Sizes -/

/-- Steps that each give a digest of one size give one in the end. -/
theorem length_fold (step : Nat → Bytes → Bytes) {size n : Nat} {start : Bytes}
    (hstart : start.length = size) (hstep : ∀ i d, (step i d).length = size) :
    (Nat.fold n (fun i _ d => step i d) start).length = size := by
  induction n with
  | zero => exact hstart
  | succ n ih =>
    rw [Nat.fold_succ]
    exact hstep ..

theorem Md5Crypt.length_digest (phrase salt : Bytes) : (digest phrase salt).length = 16 :=
  length_fold (fun i d => Md5.digest (Mixture.ofRound phrase salt d i)) (Md5.length_digest _)
    fun _ _ => Md5.length_digest _

theorem ShaCrypt.length_digest (f : HashFunction) (phrase salt : Bytes) (rounds : Nat) :
    (digest f phrase salt rounds).length = f.digestSize :=
  length_fold (fun i d => f.digest (Mixture.ofRound _ _ d i)) (f.length_digest _)
    fun _ _ => f.length_digest _

theorem Sha1Crypt.length_digest (s : Setting) (phrase : Bytes) : (digest s phrase).length = 20 :=
  length_fold (fun _ tag => Hmac.tag Sha1.hash phrase tag) rfl fun _ _ => rfl

theorem SunMd5.length_digest (s : Setting) (phrase : Bytes) : (digest s phrase).length = 16 :=
  length_fold (fun round digest => step digest round) (Md5.length_digest _)
    fun _ _ => Md5.length_digest _

theorem YescryptHash.Keyed.length_mark (v : Keyed) (phrase covered key : Bytes) :
    (v.mark phrase covered key).length = 32 := by
  have hsize : v.function.digestSize = 32 := by cases v <;> rfl
  exact (Hmac.length_tag ..).trans hsize

namespace Method

/-! ## Digests of a method -/

/-- The final digests of a method. There are none for bcrypt, whose digest is cut, and for Argon2 and
    the NT hash, which write theirs in alphabets of their own. -/
def digests? : (m : Method) → Option m.layout.Digests
  | yescrypt => some <| .single 32 43 encodeLow fun (r : YescryptHash.Setting × Bytes) phrase =>
      Yescrypt.derivedKey phrase r.1.salt r.1.params
  | keyedYescrypt v => some <| .single 32 43 encodeLow
      fun (r : YescryptHash.Setting × Bytes) phrase =>
        v.mark phrase ((v.tag ++ r.2).take (r.1.headLength + 1))
          (Yescrypt.derivedKey phrase r.1.salt r.1.params)
  | scrypt => some <| .single 32 43 encodeLow fun (s : ScryptHash.Setting) phrase =>
      Scrypt.derive phrase s.salt s.cost 32
  | shaCrypt v => some <| .single v.function.digestSize v.digestLength (scatter v.order)
      fun (s : ShaCrypt.Setting) phrase => ShaCrypt.digest v.function phrase s.salt s.rounds
  | sha1Crypt => some <| .single 20 28 (scatter Sha1Crypt.order) Sha1Crypt.digest
  | sunMd5 => some <| .single 16 22 (scatter Md5Crypt.order) SunMd5.digest
  | md5Crypt => some <| .single 16 22 (scatter Md5Crypt.order) fun (salt : Bytes) phrase =>
      Md5Crypt.digest phrase salt
  | bsdiCrypt => some <| .single 8 11 (encodeHigh .crypt) fun (s : BsdiCrypt.Setting) phrase =>
      (Des.Context.ofKey (BsdiCrypt.foldKey .zero phrase) (UInt32.ofNat s.salt)).cryptBytes
        .encrypt s.count (List.replicate 8 0)
  | descrypt => some
    { size := 8, width := 11, encode := encodeHigh .crypt
      of := fun (salt : Nat) settingLength phrase =>
        Descrypt.cipherBlocks
          (if Descrypt.isCut phrase.length settingLength then 1 else Descrypt.maxBlocks) salt
          phrase }
  | bcrypt _ | argon2 _ | ntHash => none

theorem lossless_order (v : ShaCrypt.Variant) :
    Lossless (scatter v.order) v.function.digestSize v.digestLength := by
  cases v with
  | sha256 => exact lossless_scatter (n := 32) (by decide)
  | sha512 => exact lossless_scatter (n := 64) (by decide)
  | sm3 => exact lossless_scatter (n := 32) (by decide)

/-- A method writes its final digests behind the heads of its hashes. -/
theorem digests_describes {m : Method} {d : m.layout.Digests} (h : m.digests? = some d) :
    d.Describes m.hash := by
  cases m with
  | yescrypt =>
    cases h
    refine .single (lossless_encodeLow 32) (by decide) (fun _ _ => Yescrypt.length_derivedKey ..)
      fun hh => ?_
    obtain ⟨-, -, s, body, hr, -, -, hmade⟩ := YescryptHash.hash_eq_ok_iff.1 hh
    exact ⟨(s, body), hr, hmade⟩
  | keyedYescrypt v =>
    cases h
    refine .single (lossless_encodeLow 32) (by decide) (fun _ _ => v.length_mark ..) fun hh => ?_
    obtain ⟨-, -, s, body, hr, -, -, hmade⟩ := YescryptHash.Keyed.hash_eq_ok_iff.1 hh
    exact ⟨(s, body), hr, hmade⟩
  | scrypt =>
    cases h
    refine .single (lossless_encodeLow 32) (by decide) (fun _ _ => Scrypt.length_derive ..)
      fun hh => ?_
    obtain ⟨-, s, hs, -, -, -, -, hmade⟩ := ScryptHash.hash_eq_ok_iff.1 hh
    exact ⟨s, hs, hmade⟩
  | shaCrypt v =>
    cases h
    refine .single (lossless_order v) (by cases v <;> decide)
      (fun _ _ => ShaCrypt.length_digest ..) fun hh => ?_
    obtain ⟨-, -, s, hs, -, hmade⟩ := ShaCrypt.hash_eq_ok_iff.1 hh
    exact ⟨s, hs, hmade⟩
  | sha1Crypt =>
    cases h
    refine .single (lossless_scatter (by decide)) (by decide) Sha1Crypt.length_digest fun hh => ?_
    obtain ⟨-, -, s, hs, -, hmade⟩ := Sha1Crypt.hash_eq_ok_iff.1 hh
    exact ⟨s, hs, hmade⟩
  | sunMd5 =>
    cases h
    refine .single (lossless_scatter (by decide)) (by decide) SunMd5.length_digest fun hh => ?_
    obtain ⟨s, hs, -, -, -, hmade⟩ := SunMd5.hash_eq_ok_iff.1 hh
    exact ⟨s, hs, hmade⟩
  | md5Crypt =>
    cases h
    refine .single (lossless_scatter (by decide)) (by decide)
      (fun _ _ => Md5Crypt.length_digest ..) fun hh => ?_
    obtain ⟨-, -, salt, hsalt, -, hmade⟩ := Md5Crypt.hash_eq_ok_iff.1 hh
    exact ⟨salt, hsalt, hmade⟩
  | bsdiCrypt =>
    cases h
    refine .single (lossless_encodeHigh 8) (by decide) (fun _ _ => Des.Block.length_toBytes _)
      fun hh => ?_
    obtain ⟨-, -, s, hs, -, hmade⟩ := BsdiCrypt.hash_eq_ok_iff.1 hh
    exact ⟨s, hs, hmade⟩
  | descrypt =>
    cases h
    constructor
    case lossless => exact lossless_encodeHigh 8
    case width_pos => decide
    case length_of_mem => exact Descrypt.length_of_mem_cipherBlocks
    case written =>
      intro room phrase setting h hh
      obtain ⟨-, -, salt, hsalt, -, rfl⟩ := Descrypt.hash_eq_ok_iff.1 hh
      exact ⟨salt, hsalt, congrArg (digits 2 salt ++ ·)
        (Descrypt.flatMap_cipherBlocks_of_isCut _ salt phrase).symm⟩
  | bcrypt v => cases h
  | argon2 v => cases h
  | ntHash => cases h

/-! ## Main result -/

/-- The methods that write all of their digests in the alphabet of hashes. -/
theorem digests?_isSome (m : Method) : m.digests?.isSome = true ∨ (∃ v, m = bcrypt v) ∨
    (∃ v, m = argon2 v) ∨ m = ntHash := by
  cases m with
  | bcrypt v => exact .inr (.inl ⟨v, rfl⟩)
  | argon2 v => exact .inr (.inr (.inl ⟨v, rfl⟩))
  | ntHash => exact .inr (.inr (.inr rfl))
  | _ => exact .inl rfl

/-- No digest is lost in a hash. The characters of a digest are as many as its size asks for, all in
    the alphabet of hashes, and those of one digest of that size only: for the eight bytes of DES, for
    each order in which a scheme scatters the bytes of its digest over groups, which go through
    words, and for byte strings of any length in groups of three. So for all methods but bcrypt,
    Argon2 and the NT hash, two phrases have the same hash under one setting exactly if their final
    digests are the same, which are the lists of their blocks for bigcrypt. -/
theorem hash_eq_iff_digests :
    Lossless (encodeHigh .crypt) 8 11 ∧ Lossless (scatter Md5Crypt.order) 16 22 ∧
    Lossless (scatter Sha1Crypt.order) 20 28 ∧
    Lossless (scatter ShaCrypt.Variant.order32) 32 43 ∧
    Lossless (scatter ShaCrypt.Variant.order64) 64 86 ∧
    (∀ n, Lossless encodeLow n ((4 * n + 2) / 3)) ∧
    (∀ order ∈ [Md5Crypt.order, Sha1Crypt.order, ShaCrypt.Variant.order32,
      ShaCrypt.Variant.order64], ∀ d, scatter order d = order.flatMap fun positions =>
        WordGroups.spellGroup (positions.map fun i => d.getD i 0)) ∧
    (∀ m : Method, m.digests?.isSome = true ∨ (∃ v, m = bcrypt v) ∨ (∃ v, m = argon2 v) ∨
      m = ntHash) ∧
    ∀ (m : Method) (d : m.layout.Digests), m.digests? = some d →
      Lossless d.encode d.size d.width ∧
      ∀ room room' phrase phrase' setting h h', m.hash room phrase setting = .ok h →
        m.hash room' phrase' setting = .ok h' →
          ∃ r, m.layout.read? setting = some r ∧
            (∀ digest ∈ d.of r setting.length phrase, digest.length = d.size) ∧
            h = m.layout.head r ++ (d.of r setting.length phrase).flatMap d.encode ∧
            (h = h' ↔ d.of r setting.length phrase = d.of r setting.length phrase') := by
  refine ⟨lossless_encodeHigh 8, lossless_scatter (by decide), lossless_scatter (by decide),
    lossless_scatter (by decide), lossless_scatter (by decide), lossless_encodeLow, ?words,
    digests?_isSome, ?hashes⟩
  case words =>
    intro order horder d
    simp only [List.mem_cons, List.not_mem_nil, or_false] at horder
    rcases horder with rfl | rfl | rfl | rfl
    · exact scatter_eq_flatMap (n := 16) (by decide) d
    · exact scatter_eq_flatMap (n := 20) (by decide) d
    · exact scatter_eq_flatMap (n := 32) (by decide) d
    · exact scatter_eq_flatMap (n := 64) (by decide) d
  case hashes =>
    intro m d hd
    have hdescribes := digests_describes hd
    refine ⟨hdescribes.lossless, fun room room' phrase phrase' setting h h' hh hh' => ?_⟩
    obtain ⟨r, hr, hmade, hiff⟩ := hdescribes.eq_iff hh hh'
    exact ⟨r, hr, fun _ => hdescribes.length_of_mem, hmade, hiff⟩

/-- Two phrases of traditional DES that differ in their ninth bytes only have the same hash under a
    setting that cuts them. -/
theorem hash_eq_iff_digests_cut :
    ∃ h h', descrypt.hash ⟨384, Hashing.scratchSize⟩ (Bytes.ascii "password1") (Bytes.ascii "ab") =
        .ok h ∧
      descrypt.hash ⟨384, Hashing.scratchSize⟩ (Bytes.ascii "password2") (Bytes.ascii "ab") = .ok h' ∧
      h = h' := by
  have hab : Bytes.ascii "ab" = [Alphabet.crypt.char 38, Alphabet.crypt.char 39] := by decide
  have husable : descrypt.layout.Usable descrypt.hash ⟨384, Hashing.scratchSize⟩
      (Bytes.ascii "ab") := hab ▸ Descrypt.usable_chars 38 39
  obtain ⟨h, hh⟩ : ∃ h, descrypt.hash ⟨384, Hashing.scratchSize⟩ (Bytes.ascii "password1")
    (Bytes.ascii "ab") = .ok h := husable.hashes (by decide)
  obtain ⟨h', hh'⟩ : ∃ h', descrypt.hash ⟨384, Hashing.scratchSize⟩ (Bytes.ascii "password2")
    (Bytes.ascii "ab") = .ok h' := husable.hashes (by decide)
  obtain ⟨-, -, -, -, -, -, -, -, hdigests⟩ := hash_eq_iff_digests
  obtain ⟨-, hhashes⟩ := hdigests descrypt _ rfl
  obtain ⟨salt, hsalt, -, -, hiff⟩ := hhashes _ _ _ _ _ h h' hh hh'
  have hkey : Descrypt.key (Bytes.ascii "password1") = Descrypt.key (Bytes.ascii "password2") := by
    decide +kernel
  refine ⟨h, h', hh, hh', hiff.2 ?_⟩
  show Descrypt.cipherBlocks 1 salt _ = Descrypt.cipherBlocks 1 salt _
  simp only [Descrypt.cipherBlocks, Descrypt.cipherBlock, hkey, ite_self]

end Method

end PassHash
