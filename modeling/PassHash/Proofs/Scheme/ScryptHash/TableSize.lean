import PassHash.Proofs.Base64.WordGroups
import PassHash.Proofs.Scheme.ScryptHash

/-!
# The Size of a Scrypt Table

The parameters of a setting are words of 32 bits, into which their characters are put one above the
other, and the size of the table is worked out in a word of 64 bits. The bytes of a state are
multiplied out with a check. Shifting them up to the size of the table is checked for the distance
alone: bits that leave the word are lost without notice, and for the largest tables of all nothing
is left. That the bits shifted back are not those of a state gives it away, so a table is refused
exactly if its size as a whole number is above the bound.

## Contents

- `Word.mul64?`, `Word.shiftLeft64?`: checked arithmetic in 64 bits
- `WordSetting`: cost and salt, in words
- `WordSetting.number?`, `WordSetting.saltOkFrom`, `WordSetting.parse?`: reading by places
- `WordSetting.memory?`, `WordSetting.hash`: the size of the table, and hashing with it
- `WordSetting.Parts`: the characters of a setting, part by part

## Main statements

- `WordSetting.number?_eq_some_iff`: a number and its five characters correspond
- `WordSetting.map_toSetting_parse?`, `WordSetting.memory?_eq`, `WordSetting.hash_eq`: in words the
  same is read, the same size is found, and the same comes of it
- `ScryptHash.hash_eq_noMemory_iff`: when a setting is refused for its memory
-/

namespace PassHash

/-! ## Checked words -/

namespace Word

/-- The product of two words, unless it leaves the word. -/
def mul64? (a b : UInt64) : Option UInt64 :=
  if a.toNat * b.toNat < 2 ^ 64 then some (a * b) else none

/-- A word shifted up, unless by its width or more. Bits that leave the word are lost. -/
def shiftLeft64? (a : UInt64) (k : UInt32) : Option UInt64 :=
  if k < 64 then some (a <<< k.toUInt64) else none

theorem mul64?_eq_some {a b : UInt64} (h : a.toNat * b.toNat < 2 ^ 64) :
    mul64? a b = some (a * b) := if_pos h

theorem shiftLeft64?_eq_some (a : UInt64) {k : UInt32} (h : k < 64) :
    shiftLeft64? a k = some (a <<< k.toUInt64) := if_pos h

end Word

namespace ScryptHash

open Base64 Alphabet

/-- Binary logarithm of `N`, block size, lanes, and salt, each parameter in a word of its own. -/
structure WordSetting where
  logN : UInt8
  r : UInt32
  p : UInt32
  salt : Bytes
  deriving DecidableEq, Repr

namespace WordSetting

variable {room : Room} {phrase setting : Bytes} {w : WordSetting}

/-- The same setting with whole numbers. -/
def toSetting (w : WordSetting) : Setting := ⟨w.logN.toNat, w.r.toNat, w.p.toNat, w.salt⟩

/-! ## Reading -/

/-- The number of the first five characters, each put above those ahead of it. -/
def number? (s : Bytes) : Option UInt32 := (WordGroups.collect 0 0 (s.take 5)).map (·.1)

/-- Whether a salt is well formed, looked at from a place on: the first character outside the
    alphabet has to follow a separator. -/
def saltOkFrom (setting : Bytes) (i : Nat) : Bool :=
  if h : i < setting.length then
    if isSaltChar setting[i] then saltOkFrom setting (i + 1)
    else setting.getD (i - 1) 0 == Field.dollar
  else true
termination_by setting.length - i

/-- The parts of a setting, each at its place. -/
def parse? (setting : Bytes) : Option WordSetting :=
  if !setting.startsWith tag || !saltOkFrom setting paramsLength ||
      decide (setting.length < paramsLength) then none
  else do
    let logN ← crypt.value? (setting.getD 3 0)
    if logN = 0 then none
    let r ← number? ((setting.drop 4).take 5)
    let p ← number? ((setting.drop 9).take 5)
    pure ⟨UInt8.ofNat logN, r, p, Bytes.beforeLast Field.dollar (setting.drop paramsLength)⟩

/-! ## Hashing -/

/-- The bytes of the table. There is no value when a product or a shift is refused, or when
    shifting back does not give the bytes of a state. -/
def memory? (w : WordSetting) : Option UInt64 := do
  let state ← Word.mul64? 128 w.r.toUInt64
  let table ← Word.shiftLeft64? state w.logN.toUInt32
  if table >>> w.logN.toUInt64 = 128 * w.r.toUInt64 then some table else none

/-- Refuses a table that does not fit the memory. -/
def memoryChecked (w : WordSetting) : Except Failure Unit :=
  if w.memory?.any (· ≤ maxMemory) then .ok () else .error .noMemory

/-- The hash of a phrase. -/
def hash (room : Room) (phrase setting : Bytes) : Except Failure Bytes := do
  Room.need room.output (setting.length + 1 + 43 + 1)
  let w ← Failure.orInvalid (parse? setting)
  w.memoryChecked
  Failure.unlessInvalid (costOk w.toSetting)
  Room.need room.scratch scratchSize
  Room.fit room.output
    (setting.take (paramsLength + w.salt.length) ++ [Field.dollar] ++
      encodeLow (Scrypt.derive phrase w.salt w.toSetting.cost 32))

/-! ## Numbers -/

theorem number?_eq (s : Bytes) : number? s = (Base64.number? (s.take 5)).map UInt32.ofNat := by
  have hlen : (s.take 5).length ≤ 5 := List.length_take_le ..
  rw [number?, WordGroups.collect_eq (by decide) (by omega), Option.map_map]
  congr 1
  funext v
  simp

/-- Five characters are below `2 ^ 30` together, so no bit of them leaves the word. -/
theorem map_toNat_number? {s : Bytes} (hs : s.length = 5) :
    (number? s).map UInt32.toNat = Base64.number? s := by
  rw [number?_eq, List.take_of_length_le (by omega), Option.map_map]
  cases hv : Base64.number? s with
  | none => rfl
  | some v =>
    have hlt := number?_lt hv
    rw [hs] at hlt
    have hword : v < 2 ^ 32 := Nat.lt_trans hlt (by decide)
    rw [Option.map_some, Function.comp_apply, UInt32.toNat_ofNat_of_lt' hword]

/-- A number is read from five characters exactly if it is below `2 ^ 30` and these are the
    characters that it is written with. -/
theorem number?_eq_some_iff {field : Bytes} {v : UInt32} :
    (field.length = 5 ∧ number? field = some v) ↔
      (v.toNat < 2 ^ 30 ∧ field = WordGroups.spell 5 v) := by
  rw [WordGroups.spell_eq]
  constructor
  · rintro ⟨hlen, hread⟩
    have hvalue : Base64.number? field = some v.toNat := by
      rw [← map_toNat_number? hlen, hread, Option.map_some]
    have hlt := number?_lt hvalue
    have hwritten := digits_of_number? hvalue
    rw [hlen] at hlt hwritten
    exact ⟨hlt, hwritten.symm⟩
  · rintro ⟨hlt, rfl⟩
    have hlen : (digits 5 v.toNat).length = 5 := length_digits ..
    refine ⟨hlen, ?_⟩
    rw [number?_eq, List.take_of_length_le (Nat.le_of_eq hlen), number?_digits_of_lt hlt,
      Option.map_some, UInt32.ofNat_toNat]

/-! ## Settings -/

/-- Looked at from its place on, a salt is judged as it is with the character ahead of it. -/
theorem saltOkFrom_append (ahead : Bytes) (c : UInt8) (salt : Bytes) :
    saltOkFrom (ahead ++ c :: salt) (ahead.length + 1) = saltOk c salt := by
  -- the character ahead moves along with the place
  induction salt generalizing ahead c with
  | nil =>
    rw [saltOkFrom, dif_neg (by simp), saltOk]
  | cons d salt ih =>
    have hplace : ahead.length + 1 < (ahead ++ c :: d :: salt).length := by simp
    have hchar : (ahead ++ c :: d :: salt)[ahead.length + 1] = d := by simp
    have hprevious : (ahead ++ c :: d :: salt).getD (ahead.length + 1 - 1) 0 = c := by simp
    have hnext := ih (ahead ++ [c]) d
    rw [List.append_assoc, List.singleton_append, List.length_append, List.length_singleton]
      at hnext
    rw [saltOkFrom, dif_pos hplace, hchar, hprevious, hnext, saltOk]

theorem number?_singleton (c : UInt8) : Base64.number? [c] = crypt.value? c := by
  cases h : crypt.value? c <;> simp [Base64.number?, h]

/-- Eleven characters and what follows them. -/
theorem exists_eq_cons_of_le_length {body : Bytes} (h : 11 ≤ body.length) :
    ∃ n r₀ r₁ r₂ r₃ r₄ p₀ p₁ p₂ p₃ p₄ rest,
      body = n :: r₀ :: r₁ :: r₂ :: r₃ :: r₄ :: p₀ :: p₁ :: p₂ :: p₃ :: p₄ :: rest := by
  rcases body with _ | ⟨n, _ | ⟨r₀, _ | ⟨r₁, _ | ⟨r₂, _ | ⟨r₃, _ | ⟨r₄, _ | ⟨p₀, _ | ⟨p₁,
    _ | ⟨p₂, _ | ⟨p₃, _ | ⟨p₄, rest⟩⟩⟩⟩⟩⟩⟩⟩⟩⟩⟩
  case cons.cons.cons.cons.cons.cons.cons.cons.cons.cons.cons =>
    exact ⟨n, r₀, r₁, r₂, r₃, r₄, p₀, p₁, p₂, p₃, p₄, rest, rfl⟩
  -- fewer characters
  all_goals simp at h

/-- The marker, the characters of all parameters, of which the last stands ahead of the salt, and
    the salt with what follows it. -/
structure Parts (setting : Bytes) (n : UInt8) (rField pField : Bytes) (last : UInt8)
    (rest : Bytes) : Prop where
  text : setting = tag ++ [n] ++ rField ++ (pField ++ [last]) ++ rest
  length_r : rField.length = 5
  length_p : pField.length = 4

namespace Parts

variable {n last : UInt8} {rField pField rest : Bytes}

theorem length_p_last (h : Parts setting n rField pField last rest) :
    (pField ++ [last]).length = 5 := by
  rw [List.length_append, h.length_p]
  rfl

theorem startsWith_tag (h : Parts setting n rField pField last rest) :
    setting.startsWith tag = true := by
  refine Bytes.startsWith_iff.2 ⟨[n] ++ rField ++ (pField ++ [last]) ++ rest, ?_⟩
  rw [h.text]
  simp only [List.append_assoc]

theorem length_params (h : Parts setting n rField pField last rest) :
    (tag ++ [n] ++ rField ++ (pField ++ [last])).length = paramsLength := by
  simp only [List.length_append, List.length_singleton, length_tag, h.length_r, h.length_p,
    paramsLength_eq]

theorem paramsLength_le (h : Parts setting n rField pField last rest) :
    paramsLength ≤ setting.length := by
  rw [h.text, List.length_append, h.length_params]
  exact Nat.le_add_right ..

theorem getD_eq (h : Parts setting n rField pField last rest) : setting.getD 3 0 = n := by
  rw [h.text, ← length_tag]
  simp

theorem take_drop_r (h : Parts setting n rField pField last rest) :
    (setting.drop 4).take 5 = rField := by
  have hahead : (tag ++ [n]).length = 4 := by
    rw [List.length_append, length_tag]
    rfl
  rw [h.text, List.append_assoc, List.append_assoc, List.drop_left' hahead,
    List.take_left' h.length_r]

theorem take_drop_p (h : Parts setting n rField pField last rest) :
    (setting.drop 9).take 5 = pField ++ [last] := by
  have hahead : (tag ++ [n] ++ rField).length = 9 := by
    rw [List.length_append, List.length_append, length_tag, h.length_r]
    rfl
  rw [h.text, List.append_assoc, List.drop_left' hahead, List.take_left' h.length_p_last]

theorem drop_eq (h : Parts setting n rField pField last rest) :
    setting.drop paramsLength = rest := by
  rw [h.text, List.drop_left' h.length_params]

theorem saltOkFrom_eq (h : Parts setting n rField pField last rest) :
    saltOkFrom setting paramsLength = saltOk last rest := by
  have hahead : (tag ++ [n] ++ rField ++ pField).length + 1 = paramsLength := by
    rw [← h.length_params]
    simp only [List.length_append, List.length_singleton, Nat.add_assoc]
  rw [← saltOkFrom_append (tag ++ [n] ++ rField ++ pField), hahead, h.text]
  simp only [List.append_assoc, List.singleton_append]

/-- A setting with all its parameters is read from the characters of each. -/
theorem map_toSetting_parse? (h : Parts setting n rField pField last rest) :
    (parse? setting).map toSetting =
      (Base64.number? [n]).bind fun logN => (Base64.number? rField).bind fun r =>
        (Base64.number? (pField ++ [last])).bind fun p =>
          if logN ≠ 0 ∧ saltOk last rest = true then
            some ⟨logN, r, p, Bytes.beforeLast Field.dollar rest⟩ else none := by
  have hlong : decide (setting.length < paramsLength) = false :=
    decide_eq_false (Nat.not_lt_of_le h.paramsLength_le)
  rw [parse?, h.startsWith_tag, h.saltOkFrom_eq, hlong, h.getD_eq, h.take_drop_r, h.take_drop_p,
    h.drop_eq, number?_singleton, ← map_toNat_number? h.length_r,
    ← map_toNat_number? h.length_p_last]
  cases hlogN : crypt.value? n with
  | none => simp
  | some logN =>
    have hbyte : (UInt8.ofNat logN).toNat = logN :=
      UInt8.toNat_ofNat_of_lt' (Nat.lt_trans (value?_lt hlogN) (by decide))
    cases number? rField with
    | none => simp
    | some r =>
      cases number? (pField ++ [last]) with
      | none => simp
      | some p =>
        -- the salt is judged first, and the logarithm ahead of the other parameters
        by_cases hzero : logN = 0
        · simp [hzero]
        · cases saltOk last rest with
          | false => simp
          | true => simp [hzero, toSetting, hbyte]

end Parts

/-- In words the same is read from a setting. -/
theorem map_toSetting_parse? (setting : Bytes) :
    (parse? setting).map toSetting = ScryptHash.parse? setting := by
  cases hbody : Bytes.after? tag setting with
  | none =>
    rw [parse?, ScryptHash.parse?, Bytes.startsWith, hbody]
    rfl
  | some body =>
    obtain rfl := Bytes.after?_eq_some_iff.1 hbody
    by_cases hlen : body.length < 11
    · have hshort : (tag ++ body).length < paramsLength := by
        rw [List.length_append, length_tag, paramsLength_eq]
        omega
      rw [parse?, decide_eq_true hshort, Bool.or_true, if_pos rfl, ScryptHash.parse?, hbody]
      -- not even the parameters are there
      simp only [Option.bind_eq_bind, Option.bind_some]
      split
      · simp at hlen
        omega
      · rfl
    · obtain ⟨n, r₀, r₁, r₂, r₃, r₄, p₀, p₁, p₂, p₃, p₄, rest, rfl⟩ :=
        exists_eq_cons_of_le_length (Nat.le_of_not_lt hlen)
      have hparts : Parts
          (tag ++ n :: r₀ :: r₁ :: r₂ :: r₃ :: r₄ :: p₀ :: p₁ :: p₂ :: p₃ :: p₄ :: rest)
          n [r₀, r₁, r₂, r₃, r₄] [p₀, p₁, p₂, p₃] p₄ rest := ⟨by simp, rfl, rfl⟩
      rw [ScryptHash.parse?, hbody]
      exact hparts.map_toSetting_parse?

/-! ## Memory -/

/-- The checks of product and shift pass, and the same size is found or not found. -/
theorem memory?_eq (h : w.logN.toNat < 64) :
    w.memory? = ScryptHash.memory? w.r.toNat w.logN.toNat := by
  have hproduct : (128 : UInt64).toNat * w.r.toUInt64.toNat < 2 ^ 64 := by
    have hr := w.r.toNat_lt
    rw [UInt32.toNat_toUInt64]
    show 128 * w.r.toNat < 2 ^ 64
    omega
  have hshift : w.logN.toUInt32 < 64 := by
    rw [UInt32.lt_iff_toNat_lt, UInt8.toNat_toUInt32]
    exact h
  simp only [memory?, Word.mul64?_eq_some hproduct, Word.shiftLeft64?_eq_some _ hshift,
    Option.bind_eq_bind, Option.bind_some]
  rw [ScryptHash.memory?, UInt64.ofNat_uInt32ToNat, UInt64.ofNat_uInt8ToNat]
  rfl

theorem memoryOk_eq_any (s : Setting) :
    memoryOk s = (ScryptHash.memory? s.r s.logN).any (· ≤ maxMemory) := by
  rw [memoryOk]
  cases ScryptHash.memory? s.r s.logN with
  | none => rfl
  | some m => rfl

/-- Too large a table is refused in words exactly if it is as a whole number. -/
theorem memoryChecked_eq (h : w.logN.toNat < 64) :
    w.memoryChecked = if memoryOk w.toSetting then .ok () else .error .noMemory := by
  rw [memoryChecked, memory?_eq h, memoryOk_eq_any]
  rfl

/-! ## Hashes -/

/-- In words a phrase has the same hash, or is refused for the same. -/
theorem hash_eq (room : Room) (phrase setting : Bytes) :
    hash room phrase setting = ScryptHash.hash room phrase setting := by
  rw [hash, ScryptHash.hash, ← map_toSetting_parse?]
  refine bind_congr fun _ => ?_
  cases hw : parse? setting with
  | none => rfl
  | some w =>
    have hread : ScryptHash.parse? setting = some w.toSetting := by
      rw [← map_toSetting_parse?, hw, Option.map_some]
    have hlogN : w.logN.toNat < 64 := (parse?_eq_some hread).1.logN.2
    show (w.memoryChecked >>= fun _ => _) = (if !memoryOk w.toSetting then _ else _)
    rw [memoryChecked_eq hlogN]
    cases memoryOk w.toSetting <;> rfl

end WordSetting

/-! ## Main result -/

variable {room : Room} {setting : Bytes} {s : Setting}

/-- The parameters that are written in words are the ones that are read from a setting. -/
theorem spell_prefix_iff (hs : parse? setting = some s) (logN r p : UInt32) :
    (logN.toNat < 64 ∧ r.toNat < 2 ^ 30 ∧ p.toNat < 2 ^ 30 ∧
        tag ++ (WordGroups.spell 1 logN ++ (WordGroups.spell 5 r ++ WordGroups.spell 5 p)) <+:
          setting) ↔
      (logN.toNat = s.logN ∧ r.toNat = s.r ∧ p.toNat = s.p) := by
  rw [WordGroups.spell_eq, WordGroups.spell_eq, WordGroups.spell_eq]
  exact paramsText_prefix_iff hs

/-- A setting that is read has a logarithm from 1 to 63 and parameters below `2 ^ 30`. With room for
    the hash it is refused for its memory exactly if the size of the table, as a whole number, is
    above 1 GiB. Reading a number from five characters undoes writing it with them, and the other
    way round, so the parameters that are read are the ones that are written in the setting, and a
    key is derived with no others. In words the same is read and the same comes of it; the size in
    words is that of the table, or there is none. -/
theorem hash_eq_noMemory_iff (hs : parse? setting = some s)
    (ho : setting.length + 1 + 43 + 1 ≤ room.output) (phrase : Bytes) :
    (1 ≤ s.logN ∧ s.logN ≤ 63 ∧ s.r < 2 ^ 30 ∧ s.p < 2 ^ 30) ∧
    (hash room phrase setting = .error .noMemory ↔ 2 ^ 30 < 128 * s.r * 2 ^ s.logN) ∧
    (∀ field v, (field.length = 5 ∧ WordSetting.number? field = some v) ↔
      (v.toNat < 2 ^ 30 ∧ field = WordGroups.spell 5 v)) ∧
    (∀ logN r p : UInt32,
      (logN.toNat < 64 ∧ r.toNat < 2 ^ 30 ∧ p.toNat < 2 ^ 30 ∧
          tag ++ (WordGroups.spell 1 logN ++ (WordGroups.spell 5 r ++ WordGroups.spell 5 p)) <+:
            setting) ↔
        (logN.toNat = s.logN ∧ r.toNat = s.r ∧ p.toNat = s.p)) ∧
    hash room phrase setting =
      (if 2 ^ 30 < 128 * s.r * 2 ^ s.logN then .error .noMemory
      else if costOk s = false then .error .invalid
      else if room.scratch < scratchSize then .error .range
      else .ok (head s ++
        encodeLow (Scrypt.derive phrase s.salt ⟨2 ^ s.logN, s.r, s.p⟩ 32))) ∧
    WordSetting.hash room phrase setting = hash room phrase setting ∧
    (∃ w, WordSetting.parse? setting = some w ∧ w.toSetting = s ∧
      ∀ m, w.memory? = some m ↔ m.toNat = 128 * s.r * 2 ^ s.logN) := by
  obtain ⟨⟨⟨hzero, hlogN⟩, hr, hp, -⟩, -⟩ := parse?_eq_some hs
  have hresult := hash_of_parse? hs ho phrase
  rw [digestText, Setting.cost, Nat.one_shiftLeft] at hresult
  refine ⟨⟨Nat.pos_of_ne_zero hzero, Nat.le_of_lt_succ hlogN, hr, hp⟩, ?refused,
    fun _ _ => WordSetting.number?_eq_some_iff, spell_prefix_iff hs, hresult,
    WordSetting.hash_eq room phrase setting, ?words⟩
  case refused =>
    rw [hresult]
    split
    · next hbig => exact iff_of_true rfl hbig
    · next hsmall =>
      -- whatever else is wrong, the memory is not what is given as the cause
      refine iff_of_false ?_ hsmall
      split
      · simp
      · split
        · simp
        · simp
  case words =>
    obtain ⟨w, hw, rfl⟩ := Option.map_eq_some_iff.1
      ((WordSetting.map_toSetting_parse? setting).trans hs)
    refine ⟨w, hw, rfl, fun m => ?_⟩
    rw [WordSetting.memory?_eq hlogN]
    exact memory?_eq_some_iff hr hlogN

/-- Of a table of 2 ^ 75 bytes no bit is left in a word of 64 bits, and it is refused. A table of
    1 GiB exactly is not refused for its memory, and neither is one of no bytes, which the bounds of
    the algorithm refuse. -/
theorem hash_eq_noMemory_iff_bounds :
    (128 * 32 : UInt64) <<< 63 = 0 ∧
      hash ⟨384, 32⟩ (Bytes.ascii "x") (Bytes.ascii "$7$zU..../....salt") = .error .noMemory ∧
      hash ⟨384, 32⟩ (Bytes.ascii "x") (Bytes.ascii "$7$GU..../....salt") ≠ .error .noMemory ∧
      hash ⟨384, 32⟩ (Bytes.ascii "x") (Bytes.ascii "$7$z...../....salt") = .error .invalid := by
  have hlost : parse? (Bytes.ascii "$7$zU..../....salt") =
      some ⟨63, 32, 1, Bytes.ascii "salt"⟩ := by decide
  have hlimit : parse? (Bytes.ascii "$7$GU..../....salt") =
      some ⟨18, 32, 1, Bytes.ascii "salt"⟩ := by decide
  have hnone : parse? (Bytes.ascii "$7$z...../....salt") =
      some ⟨63, 0, 1, Bytes.ascii "salt"⟩ := by decide
  obtain ⟨-, hlost', -⟩ := hash_eq_noMemory_iff hlost
    (show _ ≤ (Room.mk 384 32).output by decide) (Bytes.ascii "x")
  obtain ⟨-, hlimit', -⟩ := hash_eq_noMemory_iff hlimit
    (show _ ≤ (Room.mk 384 32).output by decide) (Bytes.ascii "x")
  obtain ⟨-, -, -, -, hnone', -⟩ := hash_eq_noMemory_iff hnone
    (show _ ≤ (Room.mk 384 32).output by decide) (Bytes.ascii "x")
  refine ⟨by decide, hlost'.2 (by decide), fun h => absurd (hlimit'.1 h) (by decide), ?_⟩
  rw [hnone']
  rfl

end ScryptHash

end PassHash
