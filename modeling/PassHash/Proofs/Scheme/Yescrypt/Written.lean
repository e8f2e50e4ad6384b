import PassHash.Proofs.Scheme.Yescrypt

/-!
# Written Settings of Yescrypt

Costs are written as three numbers. If any of the other four is stated, a mask follows that
announces those that are, and then they do, in a fixed order; what is not stated has a value of its
own. Each number says how long it is, so they need no separators, and the salt after them goes up
to the last separator. Every admissible choice of costs and salt is read back from what is written.

## Contents

- `YescryptHash.Costs`: stated costs, and their text
- `YescryptHash.written?`: a setting up to the end of its salt

## Main statements

- `YescryptHash.Costs.params?_append`: written costs are read back
- `YescryptHash.parse?_written`: a written setting is read back, with or without a hash after it
-/

namespace PassHash

namespace YescryptHash

open Base64 Yescrypt

/-! ## Costs -/

/-- The costs that a setting states: the mode, the binary logarithm of the table size and the block
    size, and as far as they are stated the lanes, the time, the upgrades and the binary logarithm
    of the size of a read-only table. -/
structure Costs where
  mode : Mode
  nLog : Nat
  r : Nat
  p? : Option Nat
  t? : Option Nat
  g? : Option Nat
  romLog? : Option Nat

namespace Costs

/-- Whether all costs are within the bounds of a setting. -/
structure Admissible (c : Costs) : Prop where
  flavor_lt : ∀ flavor, c.mode = .readWrite flavor → flavor < 256
  nLog_mem : 1 ≤ c.nLog ∧ c.nLog ≤ 63
  r_mem : 1 ≤ c.r ∧ c.r ≤ 2 ^ 30
  p_mem : ∀ p ∈ c.p?, 2 ≤ p ∧ p ≤ 2 ^ 30
  t_mem : ∀ t ∈ c.t?, 1 ≤ t ∧ t ≤ 2 ^ 30
  g_mem : ∀ g ∈ c.g?, 1 ≤ g ∧ g ≤ 2 ^ 30
  romLog_mem : ∀ n ∈ c.romLog?, 1 ≤ n ∧ n ≤ 63

/-- The parameters that the costs stand for: one lane and nothing of the rest, unless stated. -/
def params (c : Costs) : Params :=
  ⟨c.mode, 2 ^ c.nLog, c.r, c.p?.getD 1, c.t?.getD 0, c.g?.getD 0,
    (c.romLog?.map (2 ^ ·)).getD 0⟩

/-- One bit for each cost that need not be stated. -/
def mask (c : Costs) : Nat :=
  c.p?.isSome.toNat + 2 * c.t?.isSome.toNat + 4 * c.g?.isSome.toNat + 8 * c.romLog?.isSome.toNat

/-- A number if it is stated. -/
def stated? (least : Nat) : Option Nat → Option Bytes
  | none => some []
  | some v => writeNumber? least v

/-- The mask and the numbers that it announces, if there are any. -/
def announced? (c : Costs) : Option Bytes :=
  if c.mask = 0 then some []
  else do
    let mask ← writeNumber? 1 c.mask
    let p ← stated? 2 c.p?
    let t ← stated? 1 c.t?
    let g ← stated? 1 c.g?
    let rom ← stated? 1 c.romLog?
    pure (mask ++ (p ++ (t ++ (g ++ rom))))

/-- The text of the costs. -/
def text? (c : Costs) : Option Bytes := do
  let mode ← writeNumber? 0 (modeNumber c.mode)
  let n ← writeNumber? 1 c.nLog
  let r ← writeNumber? 1 c.r
  let announced ← c.announced?
  pure (mode ++ (n ++ (r ++ announced)))

variable {c : Costs}

theorem testBit_mask (c : Costs) :
    c.mask.testBit 0 = c.p?.isSome ∧ c.mask.testBit 1 = c.t?.isSome ∧
      c.mask.testBit 2 = c.g?.isSome ∧ c.mask.testBit 3 = c.romLog?.isSome := by
  have hall : ∀ p t g rom : Bool,
      (p.toNat + 2 * t.toNat + 4 * g.toNat + 8 * rom.toNat).testBit 0 = p ∧
      (p.toNat + 2 * t.toNat + 4 * g.toNat + 8 * rom.toNat).testBit 1 = t ∧
      (p.toNat + 2 * t.toNat + 4 * g.toNat + 8 * rom.toNat).testBit 2 = g ∧
      (p.toNat + 2 * t.toNat + 4 * g.toNat + 8 * rom.toNat).testBit 3 = rom := by
    decide
  exact hall _ _ _ _

theorem mask_lt (c : Costs) : c.mask < 16 := by
  have hle : ∀ b : Bool, b.toNat ≤ 1 := by decide
  have := hle c.p?.isSome
  have := hle c.t?.isSome
  have := hle c.g?.isSome
  have := hle c.romLog?.isSome
  unfold mask
  omega

/-- Without a mask no cost is stated that need not be. -/
theorem eq_none_of_mask_eq_zero (h : c.mask = 0) :
    c.p? = none ∧ c.t? = none ∧ c.g? = none ∧ c.romLog? = none := by
  obtain ⟨hp, ht, hg, hrom⟩ := c.testBit_mask
  simp only [h, Nat.zero_testBit] at hp ht hg hrom
  exact ⟨by simpa using hp.symm, by simpa using ht.symm, by simpa using hg.symm,
    by simpa using hrom.symm⟩

/-! ## Writing costs -/

/-- Numbers up to `2 ^ 30` can be written. -/
theorem exists_writeNumber?_of_le {least v : Nat} (hleast : least ≤ v) (hle : v ≤ 2 ^ 30) :
    ∃ t, writeNumber? least v = some t := by
  rw [exists_writeNumber?_iff, total_leadRanges]
  omega

theorem exists_stated? {least : Nat} {v? : Option Nat}
    (h : ∀ v ∈ v?, least ≤ v ∧ v ≤ 2 ^ 30) : ∃ t, stated? least v? = some t := by
  cases v? with
  | none => exact ⟨[], rfl⟩
  | some v => exact exists_writeNumber?_of_le (h v rfl).1 (h v rfl).2

theorem exists_announced? (hc : c.Admissible) : ∃ t, c.announced? = some t := by
  unfold announced?
  split
  · exact ⟨[], rfl⟩
  · next hmask =>
    have hlt := c.mask_lt
    obtain ⟨mask, hm⟩ := exists_writeNumber?_of_le (Nat.one_le_iff_ne_zero.2 hmask) (by omega)
    obtain ⟨p, hp⟩ := exists_stated? hc.p_mem
    obtain ⟨t, ht⟩ := exists_stated? hc.t_mem
    obtain ⟨g, hg⟩ := exists_stated? hc.g_mem
    obtain ⟨rom, hrom⟩ : ∃ t, stated? 1 c.romLog? = some t :=
      exists_stated? fun n hn => ⟨(hc.romLog_mem n hn).1, by have := hc.romLog_mem n hn; omega⟩
    exact ⟨_, by simp [hm, hp, ht, hg, hrom]; rfl⟩

/-- Admissible costs can be written. -/
theorem exists_text? (hc : c.Admissible) : ∃ t, c.text? = some t := by
  have hnumber : modeNumber c.mode ≤ 257 := by
    cases hm : c.mode with
    | classic => decide
    | writeOnce => decide
    | readWrite flavor =>
      have := hc.flavor_lt flavor hm
      show flavor + 2 ≤ 257
      omega
  obtain ⟨mode, hmode⟩ := exists_writeNumber?_of_le (Nat.zero_le (modeNumber c.mode)) (by omega)
  obtain ⟨n, hn⟩ := exists_writeNumber?_of_le hc.nLog_mem.1 (by have := hc.nLog_mem; omega)
  obtain ⟨r, hr⟩ := exists_writeNumber?_of_le hc.r_mem.1 hc.r_mem.2
  obtain ⟨announced, ha⟩ := exists_announced? hc
  exact ⟨mode ++ (n ++ (r ++ announced)), by simp [text?, hmode, hn, hr, ha]⟩

/-! ## Reading costs -/

theorem mode?_modeNumber {mode : Mode} (h : ∀ flavor, mode = .readWrite flavor → flavor < 256) :
    mode? (modeNumber mode) = some mode := by
  cases mode with
  | classic => rfl
  | writeOnce => rfl
  | readWrite flavor => exact if_pos (h flavor rfl)

theorem power?_eq {n : Nat} (h : n ≤ 63) : power? n = some (2 ^ n) := by
  rw [power?, if_pos h, Nat.one_shiftLeft]

/-- A number that need not be stated is read back, or what stands for it. -/
theorem optionalField?_append {least absent : Nat} {v? : Option Nat} {t : Bytes}
    (h : stated? least v? = some t) (rest : Bytes) :
    optionalField? v?.isSome least absent (t ++ rest) = some (v?.getD absent, rest) := by
  cases v? with
  | none =>
    cases h
    rfl
  | some v => exact field?_append h rest

/-- Written costs are read back ahead of a separator. -/
theorem params?_append (hc : c.Admissible) {t : Bytes} (ht : c.text? = some t) (rest : Bytes) :
    params? (t ++ Field.dollar :: rest) = some (c.params, Field.dollar :: rest) := by
  simp only [text?, Option.bind_eq_bind, Option.bind_eq_some_iff, Option.pure_def,
    Option.some.injEq] at ht
  obtain ⟨mode, hmode, n, hn, r, hr, announced, ha, rfl⟩ := ht
  have hpower := power?_eq hc.nLog_mem.2
  have hread := mode?_modeNumber hc.flavor_lt
  unfold announced? at ha
  split at ha
  · -- three numbers and the separator
    next hmask =>
    cases ha
    obtain ⟨hp, ht, hg, hrom⟩ := eq_none_of_mask_eq_zero hmask
    simp [params?, field?_append hmode, hread, field?_append hn, hpower, field?_append hr,
      atDollar_cons, params, hp, ht, hg, hrom]
  · -- the mask says which of the other numbers follow
    simp only [Option.bind_eq_bind, Option.bind_eq_some_iff, Option.pure_def,
      Option.some.injEq] at ha
    obtain ⟨mask, hm, p, hp, t, ht, g, hg, rom, hrom, rfl⟩ := ha
    obtain ⟨hbit0, hbit1, hbit2, hbit3⟩ := c.testBit_mask
    obtain ⟨hlen, -, hchars⟩ := length_writeNumber? hm
    have hdollar : ∀ rest, atDollar (mask ++ rest) = false :=
      atDollar_append (List.length_pos_iff.1 hlen) hchars
    simp only [params?, List.append_assoc, field?_append hmode, hread, field?_append hn, hpower,
      field?_append hr, hdollar, field?_append hm, hbit0, hbit1, hbit2, hbit3,
      optionalField?_append hp, optionalField?_append ht, optionalField?_append hg,
      optionalField?_append hrom, Option.bind_eq_bind, Option.bind_some, Bool.false_eq_true,
      if_false, Option.pure_def]
    cases hlog : c.romLog? with
    | none => simp [params, hlog]
    | some log => simp [params, hlog, power?_eq (hc.romLog_mem log hlog).2]

end Costs

/-! ## Settings -/

/-- A setting up to the end of its salt. -/
def written? (c : Costs) (salt : Bytes) : Option Bytes :=
  c.text?.map fun costs => tag ++ (costs ++ Field.dollar :: encodeLow salt)

/-- What may follow the salt: a separator and a hash. -/
def hashField : Option Bytes → Bytes
  | none => []
  | some hash => Field.dollar :: hash

/-- The salt goes up to the last separator, if there is one. -/
theorem beforeLast_append_hashField {salt : Bytes} {hash? : Option Bytes}
    (hhash : ∀ hash ∈ hash?, Field.dollar ∉ hash) :
    Bytes.beforeLast Field.dollar (encodeLow salt ++ hashField hash?) = encodeLow salt := by
  cases hash? with
  | none =>
    have hchars : ∀ c ∈ encodeLow salt, Field.isCryptChar c = true :=
      fun c hc => has_of_mem_encodeLow hc
    rw [hashField, List.append_nil, Bytes.beforeLast_eq_self (Field.dollar_notMem hchars)]
  | some hash => exact Bytes.beforeLast_append _ (hhash hash rfl)

/-- Admissible costs with a salt of at most 64 bytes can be written, and are read back from what is
    written, whether a hash follows or not. -/
theorem parse?_written {c : Costs} {salt : Bytes} {hash? : Option Bytes} (hc : c.Admissible)
    (hsalt : salt.length ≤ 64) (hhash : ∀ hash ∈ hash?, Field.dollar ∉ hash) :
    ∃ head, written? c salt = some head ∧
      parse? (head ++ hashField hash?) = some ⟨c.params, salt, head.length⟩ := by
  obtain ⟨costs, hcosts⟩ := Costs.exists_text? hc
  refine ⟨tag ++ (costs ++ Field.dollar :: encodeLow salt), by rw [written?, hcosts]; rfl, ?_⟩
  have hread := parse?_of_params? (Costs.params?_append hc hcosts) hsalt
    (beforeLast_append_hashField hhash)
  rw [List.append_assoc, List.append_assoc, List.cons_append, hread]
  exact congrArg (fun n => some (Setting.mk c.params salt n)) List.length_append.symm

/-- Eleven lanes and a read-only table are announced together; a hash may follow the salt. -/
theorem parse?_written_lanes :
    written? ⟨.readWrite 0x2d, 16, 8, some 11, none, none, some 20⟩ (Bytes.ascii "abc") =
        some (Bytes.ascii "$y$jD567H$V7qM") ∧
      parse? (Bytes.ascii "$y$jD567H$V7qM" ++ Field.dollar :: Bytes.ascii "hash") =
        some ⟨⟨.readWrite 0x2d, 2 ^ 16, 8, 11, 0, 0, 2 ^ 20⟩, Bytes.ascii "abc", 14⟩ := by
  have hwritten : written? ⟨.readWrite 0x2d, 16, 8, some 11, none, none, some 20⟩
      (Bytes.ascii "abc") = some (Bytes.ascii "$y$jD567H$V7qM") := by
    decide
  have hc : Costs.Admissible ⟨.readWrite 0x2d, 16, 8, some 11, none, none, some 20⟩ := by
    refine ⟨?_, by decide, by decide, by simp, by simp, by simp, by simp⟩
    rintro _ ⟨⟩
    decide
  have hsalt : (Bytes.ascii "abc").length ≤ 64 := by decide
  have hhash : ∀ hash ∈ some (Bytes.ascii "hash"), Field.dollar ∉ hash := by decide
  obtain ⟨head, hhead, hparse⟩ := parse?_written hc hsalt hhash
  rw [hwritten, Option.some.injEq] at hhead
  subst hhead
  exact ⟨hwritten, hparse⟩

end YescryptHash

end PassHash
