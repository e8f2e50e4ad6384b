import PassHash.Proofs.Base64.LowFirst
import PassHash.Proofs.Checks
import PassHash.Proofs.Layout
import PassHash.Proofs.Salting
import PassHash.Scheme.ScryptHash

/-!
# Settings of Scrypt

The parameters take eleven characters with no second spelling, and the salt is what goes up to the
last separator. A digest holds no separator, so the salt of a hash is the salt of its setting. Room
is asked for by the length of the setting, which a hash exceeds.

## Main statements

- `ScryptHash.saltOk_append`: a digest keeps a salt well formed
- `ScryptHash.parse?_head_append`: a setting is read back from the head of its hashes
- `ScryptHash.paramsText_prefix_iff`: the parameters that are read are those that are written
- `ScryptHash.memory?_eq_some_iff`, `ScryptHash.memoryOk_iff`: when no bits of the size of a table
  are lost, and when it fits the memory
- `ScryptHash.hash_eq_ok_iff`: when there is a hash, and which
- `ScryptHash.hash_of_parse?`: what becomes of a setting that is read
- `ScryptHash.hash_demands`, `ScryptHash.generate_demands`: more room makes no difference, and too
  little is refused
- `ScryptHash.layout`, `ScryptHash.layout_describes`: the layout of hashes
- `ScryptHash.hash_hash`: when a hash can be verified
- `ScryptHash.generate_eq_ok`, `ScryptHash.parse?_generate`: what a fresh setting consists of, and
  what is read from it
- `ScryptHash.usable_of_generate`: fresh settings are fit for use
- `ScryptHash.salting_describes`: how fresh settings are salted
-/

namespace PassHash

namespace ScryptHash

open Base64

variable {room : Room} {phrase setting h : Bytes} {s : Setting}

/-! ## Salts -/

theorem isSaltChar_of_isCryptChar {c : UInt8} (hc : Field.isCryptChar c = true) :
    isSaltChar c = true := by
  rw [isSaltChar, hc, Bool.true_or]

theorem saltOk_of_isCryptChar {previous : UInt8} {salt : Bytes}
    (hsalt : ∀ c ∈ salt, Field.isCryptChar c = true) : saltOk previous salt = true := by
  induction salt generalizing previous with
  | nil => rfl
  | cons c salt ih =>
    rw [saltOk, if_pos (isSaltChar_of_isCryptChar (hsalt c List.mem_cons_self))]
    exact ih fun d hd => hsalt d (List.mem_cons_of_mem c hd)

/-- The part of a well-formed salt ahead of a separator stays well formed ahead of a digest. -/
theorem saltOk_append {previous : UInt8} {salt rest digest : Bytes}
    (hok : saltOk previous (salt ++ rest) = true)
    (hdigest : ∀ c ∈ digest, Field.isCryptChar c = true) :
    saltOk previous (salt ++ Field.dollar :: digest) = true := by
  -- a character is judged with the one ahead of it, so that one varies in the induction
  induction salt generalizing previous with
  | nil =>
    rw [List.nil_append, saltOk, if_pos (by decide)]
    exact saltOk_of_isCryptChar hdigest
  | cons c salt ih =>
    rw [List.cons_append, saltOk] at hok ⊢
    split at hok
    · next hc =>
      rw [if_pos hc]
      exact ih hok
    · next hc =>
      rw [if_neg hc]
      exact hok

/-! ## Parameters -/

theorem length_tag : tag.length = 3 := by decide

theorem paramsLength_eq : paramsLength = 14 := by decide

/-- The text of marker and parameters. -/
def paramsText (logN r p : Nat) : Bytes := tag ++ (digits 1 logN ++ (digits 5 r ++ digits 5 p))

theorem length_paramsText (logN r p : Nat) : (paramsText logN r p).length = paramsLength := by
  simp [paramsText, paramsLength]

/-- The character ahead of a salt. -/
def lastParam (p : Nat) : UInt8 := (digits 5 p).getD 4 0

/-- A setting is read from its parameters and its salt. -/
theorem parse?_paramsText_append {logN r p : Nat} {rest : Bytes} (hzero : logN ≠ 0)
    (hlogN : logN < 64 ^ 1) (hr : r < 64 ^ 5) (hp : p < 64 ^ 5)
    (hsalt : saltOk (lastParam p) rest = true) :
    parse? (paramsText logN r p ++ rest) =
      some ⟨logN, r, p, Bytes.beforeLast Field.dollar rest⟩ := by
  have hnumberN := number?_digits_of_lt hlogN
  have hnumberR := number?_digits_of_lt hr
  have hnumberP := number?_digits_of_lt hp
  rw [parse?, paramsText, List.append_assoc, Bytes.after?_append]
  -- the reader takes the eleven characters of the parameters apart by their positions
  show (number? (digits 1 logN)).bind (fun n => (number? (digits 5 r)).bind fun r =>
    (number? (digits 5 p)).bind fun p' => if n ≠ 0 ∧ saltOk (lastParam p) rest = true then
      some (Setting.mk n r p' (Bytes.beforeLast Field.dollar rest)) else none) = _
  rw [hnumberN, Option.bind_some, hnumberR, Option.bind_some, hnumberP, Option.bind_some,
    if_pos ⟨hzero, hsalt⟩]

/-! ## Reading -/

/-- The text ahead of a digest. -/
def head (s : Setting) : Bytes := paramsText s.logN s.r s.p ++ s.salt ++ [Field.dollar]

theorem tag_prefix_paramsText (logN r p : Nat) (rest : Bytes) :
    tag <+: paramsText logN r p ++ rest := by
  simp only [paramsText, List.append_assoc]
  exact List.prefix_append ..

theorem tag_prefix_head (s : Setting) : tag <+: head s := by
  rw [head, List.append_assoc]
  exact tag_prefix_paramsText ..

/-- What a setting that is read fulfils. -/
structure Setting.Fits (s : Setting) : Prop where
  logN : s.logN ≠ 0 ∧ s.logN < 64 ^ 1
  r : s.r < 64 ^ 5
  p : s.p < 64 ^ 5
  salt : ∀ {digest : Bytes}, (∀ c ∈ digest, Field.isCryptChar c = true) →
    saltOk (lastParam s.p) (s.salt ++ Field.dollar :: digest) = true

/-- A setting starts with its parameters and the salt. -/
theorem parse?_eq_some (hs : parse? setting = some s) :
    s.Fits ∧ paramsText s.logN s.r s.p ++ s.salt <+: setting := by
  simp only [parse?, Option.bind_eq_bind, Option.bind_eq_some_iff] at hs
  obtain ⟨body, hbody, hs⟩ := hs
  split at hs
  · next n r₀ r₁ r₂ r₃ r₄ p₀ p₁ p₂ p₃ p₄ rest =>
    simp only [Option.bind_eq_some_iff] at hs
    obtain ⟨logN, hlogN, r, hr, p, hp, hs⟩ := hs
    split at hs
    · next hok =>
      cases hs
      have hn : digits 1 logN = [n] := digits_of_number? hlogN
      have hr' : digits 5 r = [r₀, r₁, r₂, r₃, r₄] := digits_of_number? hr
      have hp' : digits 5 p = [p₀, p₁, p₂, p₃, p₄] := digits_of_number? hp
      have hlast : lastParam p = p₄ := by
        rw [lastParam, hp']
        rfl
      have hsetting : setting = paramsText logN r p ++ rest := by
        rw [Bytes.after?_eq_some_iff.1 hbody, paramsText, hn, hr', hp', List.append_assoc]
        rfl
      -- the salt is all that follows the parameters, or ends at the last separator
      obtain ⟨tail, htail⟩ := Bytes.beforeLast_prefix Field.dollar rest
      refine ⟨⟨⟨hok.1, number?_lt hlogN⟩, number?_lt hr, number?_lt hp, ?_⟩, tail, ?_⟩
      · intro digest hdigest
        have hsalt := hok.2
        rw [← htail] at hsalt
        rw [hlast]
        exact saltOk_append hsalt hdigest
      · rw [hsetting, List.append_assoc, htail]
    · cases hs
  · cases hs

/-- A setting is read back from the head of its hashes, ahead of any digest. -/
theorem parse?_head_append (hs : s.Fits) {digest : Bytes}
    (hdigest : ∀ c ∈ digest, Field.isCryptChar c = true) :
    parse? (head s ++ digest) = some s := by
  have htext : head s ++ digest =
      paramsText s.logN s.r s.p ++ (s.salt ++ Field.dollar :: digest) := by simp [head]
  rw [htext, parse?_paramsText_append hs.logN.1 hs.logN.2 hs.r hs.p (hs.salt hdigest),
    Bytes.beforeLast_append s.salt (Field.dollar_notMem hdigest)]

/-- The same text is that of the same parameters. -/
theorem paramsText_inj {logN r p logN' r' p' : Nat} (hlogN : logN < 64 ^ 1) (hr : r < 64 ^ 5)
    (hp : p < 64 ^ 5) (hlogN' : logN' < 64 ^ 1) (hr' : r' < 64 ^ 5) (hp' : p' < 64 ^ 5)
    (h : paramsText logN r p = paramsText logN' r' p') : logN = logN' ∧ r = r' ∧ p = p' := by
  obtain ⟨hn, hrest⟩ := List.append_inj (List.append_cancel_left h) (by simp)
  obtain ⟨hr₀, hp₀⟩ := List.append_inj hrest (by simp)
  exact ⟨digits_inj hlogN hlogN' hn, digits_inj hr hr' hr₀, digits_inj hp hp' hp₀⟩

/-- The parameters that are read are the only ones with whose text a setting starts. -/
theorem paramsText_prefix_iff (hs : parse? setting = some s) {logN r p : Nat} :
    (logN < 64 ^ 1 ∧ r < 64 ^ 5 ∧ p < 64 ^ 5 ∧ paramsText logN r p <+: setting) ↔
      (logN = s.logN ∧ r = s.r ∧ p = s.p) := by
  obtain ⟨hfits, hprefix⟩ := parse?_eq_some hs
  have hread : paramsText s.logN s.r s.p <+: setting := (List.prefix_append ..).trans hprefix
  constructor
  · rintro ⟨hlogN, hr, hp, hwritten⟩
    have hlen : (paramsText logN r p).length = (paramsText s.logN s.r s.p).length := by
      rw [length_paramsText, length_paramsText]
    have htext := (List.prefix_of_prefix_length_le hwritten hread (Nat.le_of_eq hlen)).eq_of_length
      hlen
    exact paramsText_inj hlogN hr hp hfits.logN.2 hfits.r hfits.p htext
  · rintro ⟨rfl, rfl, rfl⟩
    exact ⟨hfits.logN.2, hfits.r, hfits.p, hread⟩

/-! ## Cost -/

/-- Bits that a shift loses are missed when it is undone. -/
theorem shiftLeft_mod_shiftRight_eq_iff {x k w : Nat} :
    ((x <<< k) % 2 ^ w) >>> k = x ↔ x * 2 ^ k < 2 ^ w := by
  rw [Nat.shiftLeft_eq, Nat.shiftRight_eq_div_pow]
  have hk : 0 < 2 ^ k := Nat.pow_pos (by decide)
  constructor
  · intro h
    have hle : x * 2 ^ k ≤ (x * 2 ^ k) % 2 ^ w := by
      conv => lhs; rw [← h]
      exact Nat.div_mul_le_self ..
    exact Nat.lt_of_le_of_lt hle (Nat.mod_lt _ (Nat.pow_pos (by decide)))
  · intro h
    rw [Nat.mod_eq_of_lt h, Nat.mul_div_cancel x hk]

/-- A size in 64 bits is that of the table as a whole number, or there is none. -/
theorem memory?_eq_some_iff {r logN : Nat} {m : UInt64} (hr : r < 64 ^ 5)
    (hlogN : logN < 64 ^ 1) : memory? r logN = some m ↔ m.toNat = 128 * r * 2 ^ logN := by
  have hstate : (128 * UInt64.ofNat r).toNat = 128 * r := by
    rw [UInt64.toNat_mul, UInt64.toNat_ofNat']
    show 128 * (r % 2 ^ 64) % 2 ^ 64 = _
    omega
  have hshift : (UInt64.ofNat logN).toNat % 64 = logN := by
    rw [UInt64.toNat_ofNat']
    omega
  have hleft : ((128 * UInt64.ofNat r) <<< UInt64.ofNat logN).toNat =
      (128 * r) <<< logN % 2 ^ 64 := by
    rw [UInt64.toNat_shiftLeft, hstate, hshift]
  have hfits : (128 * UInt64.ofNat r) <<< UInt64.ofNat logN >>> UInt64.ofNat logN =
      128 * UInt64.ofNat r ↔ 128 * r * 2 ^ logN < 2 ^ 64 := by
    rw [← UInt64.toNat_inj, UInt64.toNat_shiftRight, hleft, hshift, hstate]
    exact shiftLeft_mod_shiftRight_eq_iff
  simp only [memory?]
  split
  · next hkept =>
    rw [Option.some.injEq, ← UInt64.toNat_inj, hleft, Nat.shiftLeft_eq,
      Nat.mod_eq_of_lt (hfits.1 hkept)]
    exact eq_comm
  · next hlost =>
    -- a size that loses bits is none that a word has
    refine iff_of_false nofun fun h => hlost (hfits.2 ?_)
    rw [← h]
    exact m.toNat_lt

/-- The table fits the memory in 64 bits exactly if it does as a whole number. -/
theorem memoryOk_iff (hr : s.r < 64 ^ 5) (hlogN : s.logN < 64 ^ 1) :
    memoryOk s = true ↔ 128 * s.r * 2 ^ s.logN ≤ 2 ^ 30 := by
  rw [memoryOk]
  cases hm : memory? s.r s.logN with
  | some m =>
    rw [decide_eq_true_eq, UInt64.le_iff_toNat_le, (memory?_eq_some_iff hr hlogN).1 hm]
    rfl
  | none =>
    -- a size within the bound fits a word
    refine iff_of_false nofun fun h => ?_
    have hword : 128 * s.r * 2 ^ s.logN < 2 ^ 64 := Nat.lt_of_le_of_lt h (by decide)
    have hsome := (memory?_eq_some_iff hr hlogN).2 (UInt64.toNat_ofNat_of_lt' hword)
    rw [hm] at hsome
    cases hsome

theorem costOk_iff : costOk s = true ↔
    1 ≤ s.r ∧ 1 ≤ s.p ∧ s.logN < 16 * s.r ∧ s.r * s.p < 2 ^ 30 := by
  simp only [costOk, Bool.and_eq_true, decide_eq_true_eq, and_assoc]
  rfl

/-! ## Hashing -/

/-- The digest of a phrase. -/
def digestText (s : Setting) (phrase : Bytes) : Bytes :=
  encodeLow (Scrypt.derive phrase s.salt s.cost 32)

theorem take_eq_of_parse? (hs : parse? setting = some s) :
    setting.take (paramsLength + s.salt.length) = paramsText s.logN s.r s.p ++ s.salt := by
  have hlen : (paramsText s.logN s.r s.p ++ s.salt).length = paramsLength + s.salt.length := by
    rw [List.length_append, length_paramsText]
  rw [← hlen]
  exact (List.prefix_iff_eq_take.1 (parse?_eq_some hs).2).symm

theorem hash_eq_ok_iff : hash room phrase setting = .ok h ↔
    setting.length + 1 + 43 + 1 ≤ room.output ∧ ∃ s, parse? setting = some s ∧
      memoryOk s = true ∧ costOk s = true ∧ scratchSize ≤ room.scratch ∧
      h.length + 1 ≤ room.output ∧ head s ++ digestText s phrase = h := by
  simp only [hash, Checks.need_bind_eq_ok_iff, Checks.orInvalid_bind_eq_ok_iff,
    Checks.unlessInvalid_bind_eq_ok_iff, Checks.ite_throw_bind_eq_ok_iff, Checks.fit_eq_ok_iff,
    Bool.not_eq_true', Bool.not_eq_false]
  constructor
  · rintro ⟨ho, s, hread, hmemory, hcost, hs, hfit, hmade⟩
    rw [take_eq_of_parse? hread] at hmade
    exact ⟨ho, s, hread, hmemory, hcost, hs, hfit, hmade⟩
  · rintro ⟨ho, s, hread, hmemory, hcost, hs, hfit, hmade⟩
    rw [head, ← take_eq_of_parse? hread] at hmade
    exact ⟨ho, s, hread, hmemory, hcost, hs, hfit, hmade⟩

theorem hash_demands (phrase setting : Bytes) :
    Room.Demands fun room => hash room phrase setting :=
  .bind (.output _) fun _ => .bind (.const _) fun _ => .ite (.const _) <|
    .bind (.const _) fun _ => .bind (.scratch _) fun _ => .fit _

theorem length_digestText (s : Setting) (phrase : Bytes) : (digestText s phrase).length = 43 := by
  rw [digestText, length_encodeLow, Scrypt.length_derive]

theorem length_head_append_digestText (s : Setting) (phrase : Bytes) :
    (head s ++ digestText s phrase).length = s.salt.length + 58 := by
  rw [List.length_append, length_digestText, head, List.length_append, List.length_append,
    length_paramsText, List.length_singleton, paramsLength_eq]
  omega

/-- With room for the hash, a setting that is read is refused for its memory first, then for the
    bounds of the algorithm, and then for lack of scratch; otherwise there is the hash. -/
theorem hash_of_parse? (hs : parse? setting = some s)
    (ho : setting.length + 1 + 43 + 1 ≤ room.output) (phrase : Bytes) :
    hash room phrase setting =
      if 2 ^ 30 < 128 * s.r * 2 ^ s.logN then .error .noMemory
      else if costOk s = false then .error .invalid
      else if room.scratch < scratchSize then .error .range
      else .ok (head s ++ digestText s phrase) := by
  obtain ⟨hfits, hprefix⟩ := parse?_eq_some hs
  have hmemory := memoryOk_iff hfits.r hfits.logN.2
  by_cases hbig : 2 ^ 30 < 128 * s.r * 2 ^ s.logN
  · have hrefused : memoryOk s = false :=
      Bool.eq_false_iff.2 fun h => Nat.not_lt_of_le (hmemory.1 h) hbig
    rw [if_pos hbig, hash, Room.need, if_pos ho, hs]
    show (if !memoryOk s then _ else _) = _
    rw [hrefused]
    rfl
  · have hkept : memoryOk s = true := hmemory.2 (Nat.le_of_not_lt hbig)
    rw [if_neg hbig]
    -- what follows the memory, up to the text, which is no longer than was asked for
    have hrest : hash room phrase setting = Failure.unlessInvalid (costOk s) >>= fun _ =>
        Room.need room.scratch scratchSize >>= fun _ =>
          Room.fit room.output (head s ++ digestText s phrase) := by
      rw [head, ← take_eq_of_parse? hs, hash, Room.need, if_pos ho, hs]
      show (if !memoryOk s then _ else _) = _
      rw [hkept]
      rfl
    have hfit : Room.fit room.output (head s ++ digestText s phrase) =
        .ok (head s ++ digestText s phrase) := by
      refine Room.fit_eq_ok_iff.2 ⟨?_, rfl⟩
      have hlen := hprefix.length_le
      rw [List.length_append, length_paramsText, paramsLength_eq] at hlen
      rw [length_head_append_digestText]
      omega
    rw [hrest, hfit]
    cases costOk s with
    | false => rfl
    | true =>
      rw [if_neg (by decide)]
      by_cases hscratch : scratchSize ≤ room.scratch
      · rw [if_neg (Nat.not_lt_of_le hscratch), Room.need, if_pos hscratch]
        rfl
      · rw [if_pos (Nat.lt_of_not_le hscratch), Room.need, if_neg hscratch]
        rfl

theorem hasForbidden_paramsText (logN r p : Nat) :
    Setting.hasForbidden (paramsText logN r p) = false := by
  have htag : Setting.hasForbidden tag = false := by decide
  have hdigits : ∀ k n, Setting.hasForbidden (digits k n) = false := fun k n =>
    Setting.hasForbidden_of_isCryptChar fun _ hc => has_of_mem_digits hc
  simp [paramsText, htag, hdigits]

/-- How many characters a digest has. -/
def digestLength : Nat := 43

/-- Parameters and salt, and 43 characters of digest. The bytes that are asked for grow with the
    setting. -/
def layout : Layout where
  Reading := Setting
  read? := parse?
  head := head
  isLength n := n == digestLength
  isChar := Field.isCryptChar
  sizing room _ setting := setting + 1 + 43 + 1 ≤ room.output
  isLength_zero := rfl
  isForbidden_of_isChar := Field.isForbidden_of_isCryptChar
  reread hs _ hdigest := parse?_head_append (parse?_eq_some hs).1 hdigest
  hasForbidden_head hs hf := by
    have hpre := Setting.hasForbidden_of_subset (parse?_eq_some hs).2.subset hf
    rw [head, Setting.hasForbidden_append, hpre]
    rfl

theorem layout_describes : layout.Describes hash where
  shape hh := by
    obtain ⟨-, s, hs, -, -, -, hfit, rfl⟩ := hash_eq_ok_iff.1 hh
    exact ⟨hfit, s, _, hs, ⟨beq_iff_eq.2 (length_digestText ..),
      fun c hc => has_of_mem_encodeLow hc⟩, rfl⟩
  congr {room phrase setting setting'} s hr hr' hsize := by
    replace hr : parse? setting = some s := hr
    replace hr' : parse? setting' = some s := hr'
    have hneed : Room.need room.output (setting.length + 1 + 43 + 1) =
        Room.need room.output (setting'.length + 1 + 43 + 1) := Checks.need_congr hsize
    have htake := take_eq_of_parse? hr
    have htake' := take_eq_of_parse? hr'
    simp only [hash, hneed, hr, hr', Failure.orInvalid, bind, Except.bind, htake, htake']

/-- The hash under a short setting leaves as much room as the setting does. -/
theorem sizing_hash (hh : hash room phrase setting = .ok h)
    (hroom : setting.length + 1 + 43 + 1 + 44 ≤ room.output) :
    layout.sizing room phrase.length h.length =
      layout.sizing room phrase.length setting.length := by
  obtain ⟨ho, s, hs, -, -, -, -, rfl⟩ := hash_eq_ok_iff.1 hh
  -- what the hash repeats of the setting is no longer than the setting
  have hlen := (parse?_eq_some hs).2.length_le
  have hh : (head s ++ digestText s phrase).length ≤ setting.length + 44 := by
    rw [List.length_append, length_digestText, head, List.length_append, List.length_singleton]
    omega
  exact decide_eq_decide.2 (by omega)

/-- A phrase has its hash under the hash again exactly if there is room for one more digest. -/
theorem hash_hash (hh : hash room phrase setting = .ok h) :
    hash room phrase h =
      if h.length + 1 + 43 + 1 ≤ room.output then .ok h else .error .range := by
  obtain ⟨ho, -⟩ := hash_eq_ok_iff.1 hh
  split
  · next hroom =>
    exact layout_describes.rehash hh ((decide_eq_true hroom).trans (decide_eq_true ho).symm)
  · next hroom =>
    -- the bytes that are asked for count the digest that stands in the hash already
    rw [hash, Room.need, if_neg hroom]
    rfl

/-! ## Fresh settings -/

theorem freshCount?_eq_some {count n : Nat} (hn : freshCount? count = some n) :
    6 ≤ n ∧ n ≤ 11 := by
  unfold freshCount? at hn
  split at hn
  · cases hn
    decide
  · split at hn
    · next hin =>
      cases hn
      exact hin
    · cases hn

/-- The largest fresh table takes the most memory exactly. -/
theorem memoryOk_fresh {n : Nat} (hmin : 6 ≤ n) (hmax : n ≤ 11) (salt : Bytes) :
    memoryOk ⟨n + 7, 32, 1, salt⟩ = true := by
  have hall : ∀ n < 12, 6 ≤ n → memoryOk ⟨n + 7, 32, 1, []⟩ = true := by decide
  exact hall n (by omega) hmin

/-- A fresh setting is the text of the parameters and the salt. -/
theorem generate_eq_ok {capacity count : Nat} {random : Bytes}
    (hg : generate capacity count random = .ok setting) :
    ∃ n, freshCount? count = some n ∧ 6 ≤ n ∧ n ≤ 11 ∧
      setting = paramsText (n + 7) 32 1 ++ encodeLow random ∧ setting.length + 1 ≤ capacity := by
  simp only [generate, Checks.need_bind_eq_ok_iff, Checks.orInvalid_bind_eq_ok_iff,
    Checks.unlessInvalid_bind_eq_ok_iff, Room.fit_eq_ok_iff] at hg
  obtain ⟨-, n, hn, -, hfit, rfl⟩ := hg
  obtain ⟨hmin, hmax⟩ := freshCount?_eq_some hn
  refine ⟨n, hn, hmin, hmax, ?_, hfit⟩
  simp [paramsText]

/-- A salt without separator is read to its end. -/
theorem parse?_paramsText_salt {logN r p : Nat} {salt : Bytes} (hzero : logN ≠ 0)
    (hlogN : logN < 64 ^ 1) (hr : r < 64 ^ 5) (hp : p < 64 ^ 5)
    (hchars : ∀ c ∈ salt, Field.isCryptChar c = true) :
    parse? (paramsText logN r p ++ salt) = some ⟨logN, r, p, salt⟩ := by
  rw [parse?_paramsText_append hzero hlogN hr hp (saltOk_of_isCryptChar hchars),
    Bytes.beforeLast_eq_self (Field.dollar_notMem hchars)]

/-- Cost and salt are read back from a fresh setting. -/
theorem parse?_generate {capacity count : Nat} {random : Bytes}
    (hg : generate capacity count random = .ok setting) :
    parse? setting = some ⟨(if count = 0 then 7 else count) + 7, 32, 1, encodeLow random⟩ := by
  obtain ⟨n, hn, hmin, hmax, rfl, -⟩ := generate_eq_ok hg
  have hcount : n = if count = 0 then 7 else count := by
    unfold freshCount? at hn
    split at hn
    · next hzero => rw [if_pos hzero, ← Option.some.inj hn]
    · next hzero =>
      split at hn
      · rw [if_neg hzero, ← Option.some.inj hn]
      · cases hn
  rw [parse?_paramsText_salt (by omega) (by omega) (by decide) (by decide)
    fun _ => has_of_mem_encodeLow, hcount]

/-- With a salt without separator and parameters within the bounds, every phrase has a hash, if
    there is room for it. -/
theorem hash_paramsText_salt {logN r p : Nat} {salt : Bytes} (hzero : logN ≠ 0)
    (hlogN : logN < 64 ^ 1) (hr : r < 64 ^ 5) (hp : p < 64 ^ 5)
    (hchars : ∀ c ∈ salt, Field.isCryptChar c = true)
    (hmemory : memoryOk ⟨logN, r, p, salt⟩ = true) (hcost : costOk ⟨logN, r, p, salt⟩ = true)
    (hs : scratchSize ≤ room.scratch) (ho : salt.length + 59 ≤ room.output) (phrase : Bytes) :
    hash room phrase (paramsText logN r p ++ salt) =
      .ok (head ⟨logN, r, p, salt⟩ ++ digestText ⟨logN, r, p, salt⟩ phrase) := by
  refine hash_eq_ok_iff.2 ⟨?_, _, parse?_paramsText_salt hzero hlogN hr hp hchars, hmemory, hcost,
    hs, ?_, rfl⟩
  · rw [List.length_append, length_paramsText]
    show 14 + salt.length + 1 + 43 + 1 ≤ room.output
    omega
  · rw [length_head_append_digestText]
    exact ho

theorem usable_paramsText_append {n : Nat} (hmin : 6 ≤ n) (hmax : n ≤ 11) {salt : Bytes}
    (hchars : ∀ c ∈ salt, Field.isCryptChar c = true)
    (hlen : (paramsText (n + 7) 32 1 ++ salt).length + 1 ≤ 192) :
    layout.Usable hash ⟨384, Hashing.scratchSize⟩ (paramsText (n + 7) 32 1 ++ salt) := by
  have hzero : n + 7 ≠ 0 := by omega
  have hlogN : n + 7 < 64 ^ 1 := by omega
  have hcost : costOk ⟨n + 7, 32, 1, salt⟩ = true := by
    simp [costOk]
    omega
  constructor
  case reads =>
    exact ⟨_, parse?_paramsText_salt hzero hlogN (by decide) (by decide) hchars,
      List.prefix_append ..⟩
  case hasForbidden =>
    simp [hasForbidden_paramsText, Setting.hasForbidden_of_isCryptChar hchars]
  case hashes =>
    intro phrase _
    rw [List.length_append, length_paramsText] at hlen
    refine ⟨_, hash_paramsText_salt hzero hlogN (by decide) (by decide) hchars
      (memoryOk_fresh hmin hmax salt) hcost (by decide) ?_ phrase⟩
    show salt.length + 59 ≤ 384
    omega

theorem generate_demands (count : Nat) (random : Bytes) :
    Room.Demands fun room => generate room.output count random :=
  .bind (.output _) fun _ => .bind (.const _) fun _ => .bind (.const _) fun _ => .fit _

theorem generate_fitting (capacity count : Nat) (random : Bytes) :
    Room.Fitting capacity (generate capacity count random) :=
  .bind fun _ => .bind fun _ => .bind fun _ => .fit _

/-- A fresh setting has no forbidden characters and starts with the marker. -/
theorem clean_of_generate {capacity count : Nat} {random : Bytes}
    (hg : generate capacity count random = .ok setting) :
    Setting.hasForbidden setting = false ∧ tag <+: setting := by
  obtain ⟨n, -, -, -, rfl, -⟩ := generate_eq_ok hg
  have hsalt : Setting.hasForbidden (encodeLow random) = false :=
    Setting.hasForbidden_of_isCryptChar fun c hc => has_of_mem_encodeLow hc
  exact ⟨by simp [hasForbidden_paramsText, hsalt], tag_prefix_paramsText ..⟩

theorem usable_of_generate {capacity count : Nat} {random : Bytes}
    (hg : generate capacity count random = .ok setting) (hcapacity : capacity ≤ 192) :
    layout.Usable hash ⟨384, Hashing.scratchSize⟩ setting ∧ tag <+: setting := by
  obtain ⟨n, -, hmin, hmax, rfl, hfit⟩ := generate_eq_ok hg
  have hchars : ∀ c ∈ encodeLow random, Field.isCryptChar c = true :=
    fun c hc => has_of_mem_encodeLow hc
  exact ⟨usable_paramsText_append hmin hmax hchars (Nat.le_trans hfit hcapacity),
    tag_prefix_paramsText ..⟩

/-! ## Salting -/

/-- A salt holds all random bytes and follows the parameters. -/
def salting : Salting where
  part random := random
  write := encodeLow
  field := List.drop paramsLength
  least := 0

theorem salting_describes (capacity : Nat) : salting.Describes (generate capacity) where
  field_eq hg := by
    obtain ⟨n, -, -, -, rfl, -⟩ := generate_eq_ok hg
    show (paramsText (n + 7) 32 1 ++ _).drop paramsLength = _
    rw [← length_paramsText (n + 7) 32 1, List.drop_left]
    rfl
  part_eq_nil_iff {count random setting} hg := by
    simp only [generate, Checks.need_bind_eq_ok_iff, Checks.orInvalid_bind_eq_ok_iff,
      Checks.unlessInvalid_bind_eq_ok_iff, decide_eq_true_eq] at hg
    obtain ⟨-, n, -, hrandom, -⟩ := hg
    refine iff_of_false (fun h => ?_) (Nat.not_lt_zero _)
    have hlen : random.length = 0 := congrArg List.length h
    omega
  part_nil := rfl
  write_nil := rfl
  write_injective h := encodeLow_injective h

end ScryptHash

end PassHash
