import PassHash.Proofs.FreshSetting
import PassHash.Proofs.Kdf.Traced

/-!
# Memory of Key Derivations

Scrypt and the yescrypt family refuse sizes that take too much memory ahead of the derivation. With
yescrypt both the table and the lanes are bounded by 1 GiB, in every step that starts. Scrypt bounds
its table alone: of the lanes only the number of blocks is bounded, which leaves them up to 128 GiB,
and a short setting is enough to ask for that.

## Contents

- `ScryptHash.traced`, `YescryptHash.traced`, `Method.traced`: hashes with the derivations that they
  start
- `Method.cost?`, `Scrypt.Cost.firstStep`: the sizes that a setting states, and those of the first
  of two steps
- `Method.Within`: the bounds that the sizes of a method are kept to

## Main statements

- `Method.result_traced`: without the trace there is the hash
- `Method.derivations_within`: what is started, and what is refused
-/

namespace PassHash

open Traced

variable {room : Room} {phrase setting h : Bytes}

/-! ## Scrypt -/

namespace ScryptHash

/-- The hash of a phrase, with the derivations that were started for it. -/
def traced (room : Room) (phrase setting : Bytes) : Traced Bytes := do
  check (Room.need room.output (setting.length + 1 + 43 + 1))
  let s ← check (Failure.orInvalid (parse? setting))
  check (if memoryOk s then .ok () else .error .noMemory)
  check (Failure.unlessInvalid (costOk s))
  check (Room.need room.scratch scratchSize)
  start s.cost
  check (Room.fit room.output
    (setting.take (paramsLength + s.salt.length) ++ [Field.dollar] ++
      Base64.encodeLow (Scrypt.derive phrase s.salt s.cost 32)))

theorem result_traced (room : Room) (phrase setting : Bytes) :
    (traced room phrase setting).result = hash room phrase setting := by
  simp only [traced, hash, result_bind, result_check, result_start]
  refine bind_congr fun _ => bind_congr fun s => ?_
  -- the two ways to refuse a table that is too large come to the same
  cases memoryOk s with
  | false => rfl
  | true => rfl

theorem keeps_traced (room : Room) (phrase setting : Bytes) :
    Keeps (fun c => ∃ s, parse? setting = some s ∧ memoryOk s = true ∧ costOk s = true ∧ c = s.cost)
      (traced room phrase setting) := by
  refine .bind (.need _ _) fun _ _ => .bind (.orInvalid _) fun s hs => ?_
  refine .bind (.check ?_) fun _ hmemory => .bind (.unlessInvalid _) fun _ hcost => ?_
  · split <;> nofun
  · have hmemory' : memoryOk s = true := by
      rw [result_check] at hmemory
      split at hmemory
      · next h => exact h
      · cases hmemory
    have hcost' : costOk s = true := by
      rw [result_check, Failure.unlessInvalid] at hcost
      split at hcost
      · next h => exact h
      · cases hcost
    refine .bind (.need _ _) fun _ _ => .bind (.start ?_) fun _ _ => .fit _ _
    exact ⟨s, Checks.orInvalid_eq_ok_iff.1 hs, hmemory', hcost', rfl⟩

/-- Where no check refuses, a derivation is started with the sizes of the setting. -/
theorem started_traced {s : Setting} (ho : setting.length + 1 + 43 + 1 ≤ room.output)
    (hs : parse? setting = some s) (hmemory : memoryOk s = true) (hcost : costOk s = true)
    (hscratch : scratchSize ≤ room.scratch) (phrase : Bytes) :
    (traced room phrase setting).started = [s.cost] := by
  have hread : (check (Failure.orInvalid (parse? setting))).result = .ok s :=
    Checks.orInvalid_eq_ok_iff.2 hs
  have hmemory' : (check (if memoryOk s then .ok () else .error .noMemory :
      Except Failure Unit)).result = .ok () := if_pos hmemory
  have hcost' : (check (Failure.unlessInvalid (costOk s))).result = .ok () := if_pos hcost
  rw [traced, started_bind (a := ()) (if_pos ho), started_bind hread, started_bind hmemory',
    started_bind hcost', started_bind (a := ()) (if_pos hscratch), started_bind (a := ()) rfl]
  rfl

end ScryptHash

/-! ## Yescrypt -/

namespace YescryptHash

/-- A parsed setting and the key derived under it, with the derivations that were started. -/
def tracedKeyed (phrase setting : Bytes) : Traced (Setting × Bytes) := do
  let s ← check (Failure.orInvalid (parse? setting))
  let key ← Yescrypt.traced phrase s.salt s.params
  pure (s, key)

/-- The hash of a phrase, with the derivations that were started for it. -/
def traced (room : Room) (phrase setting : Bytes) : Traced Bytes := do
  check (Room.need room.output (outputSize setting))
  check (Room.need room.scratch scratchSize)
  let (s, key) ← tracedKeyed phrase setting
  check (Room.fit room.output (setting.take s.headLength ++ [Field.dollar] ++
    Base64.encodeLow key))

/-- The same for a variant that tags the key. -/
def Keyed.traced (v : Keyed) (room : Room) (phrase setting : Bytes) : Traced Bytes := do
  check (Room.need room.output (outputSize setting))
  let rest ← check (Failure.orInvalid (Bytes.after? v.tag setting))
  check (Room.need room.scratch scratchSize)
  let plain := YescryptHash.tag ++ rest
  let (s, key) ← tracedKeyed phrase plain
  let covered ← check (Failure.orInvalid (covered? setting s.headLength))
  check (Room.fit room.output
    (v.tag ++ (plain.take s.headLength).drop YescryptHash.tag.length ++ [Field.dollar] ++
      Base64.encodeLow (v.mark phrase covered key)))

theorem exists_power_of_params? {t rest : Bytes} {q : Yescrypt.Params}
    (h : params? t = some (q, rest)) : ∃ k, q.n = 2 ^ k := by
  simp only [params?, Option.bind_eq_bind, Option.bind_eq_some_iff] at h
  obtain ⟨⟨m, t₁⟩, -, mode, -, ⟨nLog, t₂⟩, -, n, hn, ⟨r, t₃⟩, -, h⟩ := h
  have hpower : n = 2 ^ nLog := by
    simp only [power?] at hn
    split at hn
    · cases hn
      exact Nat.one_shiftLeft nLog
    · cases hn
  refine ⟨nLog, ?_⟩
  simp only at h
  split at h
  · cases h
    exact hpower
  · simp only [Option.bind_eq_some_iff] at h
    obtain ⟨_, -, _, -, _, -, _, -, _, -, h⟩ := h
    split at h
    · obtain ⟨nrom, -, h⟩ := Option.bind_eq_some_iff.1 h
      cases h
      exact hpower
    · cases h
      exact hpower

theorem exists_power_of_parse? {s : Setting} (h : parse? setting = some s) :
    ∃ k, s.params.n = 2 ^ k := by
  simp only [parse?, Option.bind_eq_bind, Option.bind_eq_some_iff] at h
  obtain ⟨body, -, ⟨q, rest⟩, hq, saltAndHash, -, salt, -, h⟩ := h
  split at h
  · cases h
    exact exists_power_of_params? hq
  · cases h

theorem result_tracedKeyed (phrase setting : Bytes) :
    (tracedKeyed phrase setting).result = keyed phrase setting := by
  simp only [tracedKeyed, keyed, result_bind, result_check, result_pure]
  cases hs : parse? setting with
  | none => rfl
  | some s =>
    show ((Yescrypt.traced phrase s.salt s.params).result >>= _) = _
    rw [Yescrypt.result_traced (exists_power_of_parse? hs)]
    rfl

/-- The sizes that a setting states, or those of the first of two steps, which are started with
    only if they fit the memory. -/
def Starts (setting : Bytes) (c : Scrypt.Cost) : Prop :=
  ∃ s, parse? setting = some s ∧
    ((c = s.params.cost ∧ s.params.Fits) ∨ (c = s.params.prehash.cost ∧ s.params.prehash.Fits))

theorem keeps_tracedKeyed (phrase setting : Bytes) :
    Keeps (Starts setting) (tracedKeyed phrase setting) := by
  refine .bind (.orInvalid _) fun s hs => ?_
  refine .bind ((Yescrypt.keeps_traced _ _ _).mono fun c hc => ?_) fun _ _ => .pure _
  exact ⟨s, Checks.orInvalid_eq_ok_iff.1 hs, hc⟩

theorem result_traced (room : Room) (phrase setting : Bytes) :
    (traced room phrase setting).result = hash room phrase setting := by
  simp only [traced, hash, result_bind, result_check, result_tracedKeyed]

theorem keeps_traced (room : Room) (phrase setting : Bytes) :
    Keeps (Starts setting) (traced room phrase setting) :=
  .bind (.need _ _) fun _ _ => .bind (.need _ _) fun _ _ =>
    .bind (keeps_tracedKeyed phrase setting) fun _ _ => .fit _ _

theorem Keyed.result_traced (v : Keyed) (room : Room) (phrase setting : Bytes) :
    (v.traced room phrase setting).result = v.hash room phrase setting := by
  simp only [traced, hash, result_bind, result_check, result_tracedKeyed]

theorem Keyed.keeps_traced (v : Keyed) (room : Room) (phrase setting : Bytes) :
    Keeps (fun c => ∃ rest, setting = v.tag ++ rest ∧ Starts (YescryptHash.tag ++ rest) c)
      (v.traced room phrase setting) := by
  refine .bind (.need _ _) fun _ _ => .bind (.orInvalid _) fun rest hrest => ?_
  have hsetting : setting = v.tag ++ rest :=
    Bytes.after?_eq_some_iff.1 (Checks.orInvalid_eq_ok_iff.1 hrest)
  refine .bind (.need _ _) fun _ _ => .bind ((keeps_tracedKeyed phrase _).mono fun c hc => ?_)
    fun _ _ => .bind (.orInvalid _) fun _ _ => .fit _ _
  exact ⟨rest, hsetting, hc⟩

theorem fits_of_keyed {s : Setting} {key : Bytes} (h : keyed phrase setting = .ok (s, key)) :
    parse? setting = some s ∧ s.params.Fits := by
  obtain ⟨hs, hchecked, -⟩ := keyed_eq_ok_iff.1 h
  exact ⟨hs, Yescrypt.fits_of_checked hchecked⟩

theorem fits_of_hash (hh : hash room phrase setting = .ok h) :
    ∃ s, parse? setting = some s ∧ s.params.Fits := by
  simp only [hash, Checks.need_bind_eq_ok_iff] at hh
  obtain ⟨-, -, hh⟩ := hh
  obtain ⟨⟨s, key⟩, hkeyed, -⟩ := Checks.bind_eq_ok_iff.1 hh
  exact ⟨s, fits_of_keyed hkeyed⟩

theorem Keyed.fits_of_hash {v : Keyed} (hh : v.hash room phrase setting = .ok h) :
    ∃ rest s, Bytes.after? v.tag setting = some rest ∧
      parse? (YescryptHash.tag ++ rest) = some s ∧ s.params.Fits := by
  simp only [hash, Checks.need_bind_eq_ok_iff, Checks.orInvalid_bind_eq_ok_iff] at hh
  obtain ⟨-, rest, hrest, -, hh⟩ := hh
  obtain ⟨⟨s, key⟩, hkeyed, -⟩ := Checks.bind_eq_ok_iff.1 hh
  exact ⟨rest, s, hrest, fits_of_keyed hkeyed⟩

end YescryptHash

/-! ## Methods -/

/-- The sizes of the first of two steps. -/
def Scrypt.Cost.firstStep (c : Scrypt.Cost) : Scrypt.Cost := { c with n := c.n / 64 }

namespace Method

variable {m : Method} {c : Scrypt.Cost}

/-- The methods that derive a key with scrypt or with yescrypt. -/
def memoryHard : List Method := scrypt :: yescryptFamily

theorem eq_of_mem_memoryHard (hm : m ∈ memoryHard) :
    m = scrypt ∨ m = yescrypt ∨ ∃ v, m = keyedYescrypt v := by
  simp only [memoryHard, yescryptFamily, List.mem_cons, List.not_mem_nil, or_false] at hm
  rcases hm with rfl | rfl | rfl | rfl
  · exact .inl rfl
  · exact .inr (.inl rfl)
  · exact .inr (.inr ⟨_, rfl⟩)
  · exact .inr (.inr ⟨_, rfl⟩)

/-- The hash of a phrase, with the derivations of these methods that were started for it. -/
def traced : Method → Room → (phrase setting : Bytes) → Traced Bytes
  | scrypt => ScryptHash.traced
  | yescrypt => YescryptHash.traced
  | keyedYescrypt v => v.traced
  | m => fun room phrase setting => check (m.hash room phrase setting)

/-- Without the trace there is the hash. -/
theorem result_traced (m : Method) (room : Room) (phrase setting : Bytes) :
    (m.traced room phrase setting).result = m.hash room phrase setting := by
  cases m with
  | scrypt => exact ScryptHash.result_traced room phrase setting
  | yescrypt => exact YescryptHash.result_traced room phrase setting
  | keyedYescrypt v => exact v.result_traced room phrase setting
  | _ => rfl

/-- The sizes that a setting states. -/
def cost? : Method → Bytes → Option Scrypt.Cost
  | scrypt, setting => (ScryptHash.parse? setting).map (·.cost)
  | yescrypt, setting => (YescryptHash.parse? setting).map (·.params.cost)
  | keyedYescrypt v, setting =>
    (Bytes.after? v.tag setting).bind fun rest =>
      (YescryptHash.parse? (YescryptHash.tag ++ rest)).map (·.params.cost)
  | _, _ => none

/-- The bounds on sizes: 1 GiB for a table, and for all lanes as well unless the method is scrypt,
    which bounds the number of their blocks alone. -/
def Within (m : Method) (c : Scrypt.Cost) : Prop :=
  128 * c.r * c.n ≤ 2 ^ 30 ∧
    if m = scrypt then c.r * c.p < 2 ^ 30 else 128 * c.r * c.p ≤ 2 ^ 30

/-- What a method may start for a setting: sizes within bounds, which the setting states or which
    are those of a first step. -/
def MayStart (m : Method) (setting : Bytes) (c : Scrypt.Cost) : Prop :=
  m.Within c ∧
    ∃ stated, m.cost? setting = some stated ∧ (c = stated ∨ m ≠ scrypt ∧ c = stated.firstStep)

theorem within_scrypt {s : ScryptHash.Setting} (hs : ScryptHash.parse? setting = some s)
    (hmemory : ScryptHash.memoryOk s = true) (hcost : ScryptHash.costOk s = true) :
    scrypt.Within s.cost := by
  obtain ⟨hfits, -⟩ := ScryptHash.parse?_eq_some hs
  have htable := (ScryptHash.memoryOk_iff hfits.r hfits.logN.2).1 hmemory
  rw [← Nat.one_shiftLeft] at htable
  exact ⟨htable, (ScryptHash.costOk_iff.1 hcost).2.2.2⟩

theorem within_of_fits (hm : m ≠ scrypt) {q : Yescrypt.Params} (h : q.Fits) : m.Within q.cost :=
  ⟨h.1, by rw [if_neg hm]; exact h.2⟩

theorem mayStart_of_starts (hm : m ≠ scrypt) {plain : Bytes}
    (hcost : m.cost? setting = (YescryptHash.parse? plain).map (·.params.cost))
    (h : YescryptHash.Starts plain c) : m.MayStart setting c := by
  obtain ⟨s, hs, ⟨rfl, hfits⟩ | ⟨rfl, hfits⟩⟩ := h
  · exact ⟨within_of_fits hm hfits, s.params.cost, by rw [hcost, hs]; rfl, .inl rfl⟩
  · exact ⟨within_of_fits hm hfits, s.params.cost, by rw [hcost, hs]; rfl, .inr ⟨hm, rfl⟩⟩

theorem keeps_traced (hm : m ∈ memoryHard) (room : Room) (phrase setting : Bytes) :
    Keeps (m.MayStart setting) (m.traced room phrase setting) := by
  rcases eq_of_mem_memoryHard hm with rfl | rfl | ⟨v, rfl⟩
  · refine (ScryptHash.keeps_traced room phrase setting).mono ?_
    rintro c ⟨s, hs, hmemory, hcost, rfl⟩
    exact ⟨within_scrypt hs hmemory hcost, s.cost, by rw [cost?, hs]; rfl, .inl rfl⟩
  · refine (YescryptHash.keeps_traced room phrase setting).mono fun c hc => ?_
    exact mayStart_of_starts nofun rfl hc
  · refine (v.keeps_traced room phrase setting).mono ?_
    rintro c ⟨rest, rfl, hc⟩
    refine mayStart_of_starts nofun ?_ hc
    rw [cost?, Bytes.after?_append]
    rfl

/-- A setting that has a hash states sizes within the bounds. -/
theorem within_of_hash (hm : m ∈ memoryHard) (hh : m.hash room phrase setting = .ok h) :
    ∃ c, m.cost? setting = some c ∧ m.Within c := by
  rcases eq_of_mem_memoryHard hm with rfl | rfl | ⟨v, rfl⟩
  · obtain ⟨-, s, hs, hmemory, hcost, -⟩ := ScryptHash.hash_eq_ok_iff.1 hh
    exact ⟨s.cost, by rw [cost?, hs]; rfl, within_scrypt hs hmemory hcost⟩
  · obtain ⟨s, hs, hfits⟩ := YescryptHash.fits_of_hash hh
    refine ⟨s.params.cost, ?_, within_of_fits (m := yescrypt) nofun hfits⟩
    rw [cost?, hs]
    rfl
  · obtain ⟨rest, s, hrest, hs, hfits⟩ := YescryptHash.Keyed.fits_of_hash hh
    refine ⟨s.params.cost, ?_, within_of_fits (m := keyedYescrypt v) nofun hfits⟩
    rw [cost?, hrest, Option.bind_some, hs]
    rfl

/-- Whatever derivation a hash starts has sizes within the bounds of the method, the ones that the
    setting states or those of the first step of two. A setting that states others, or none, is
    refused. -/
theorem derivations_within (hm : m ∈ memoryHard) (room : Room) (phrase setting : Bytes) :
    (m.traced room phrase setting).result = m.hash room phrase setting ∧
      (∀ c ∈ (m.traced room phrase setting).started, m.Within c ∧
        ∃ stated, m.cost? setting = some stated ∧
          (c = stated ∨ m ≠ scrypt ∧ c = stated.firstStep)) ∧
      ((∀ c, m.cost? setting = some c → ¬ m.Within c) →
        ∃ e ∈ [Failure.invalid, .noMemory, .range],
          m.hash room phrase setting = .error e) := by
  have hkeeps := keeps_traced hm room phrase setting
  have hresult := result_traced m room phrase setting
  refine ⟨hresult, hkeeps.started, fun hnone => ?_⟩
  -- a hash would come from sizes within the bounds
  cases hh : m.hash room phrase setting with
  | ok h =>
    obtain ⟨c, hc, hwithin⟩ := within_of_hash hm hh
    exact absurd hwithin (hnone c hc)
  | error e =>
    have hne := hkeeps.result
    rw [hresult, hh] at hne
    refine ⟨e, ?_, rfl⟩
    cases e with
    | noEntropy => exact absurd rfl hne
    | _ => simp

/-- A table of 2 ^ 63 states is refused, and nothing is started. -/
theorem derivations_within_refused :
    (scrypt.traced ⟨384, Hashing.scratchSize⟩ (Bytes.ascii "x")
        (Bytes.ascii "$7$zU..../....salt")).started = [] ∧
      ∃ e ∈ [Failure.invalid, .noMemory, .range],
        scrypt.hash ⟨384, Hashing.scratchSize⟩ (Bytes.ascii "x")
          (Bytes.ascii "$7$zU..../....salt") = .error e := by
  have hcost : scrypt.cost? (Bytes.ascii "$7$zU..../....salt") = some ⟨2 ^ 63, 32, 1⟩ := by
    decide
  have hnot : ∀ c, scrypt.cost? (Bytes.ascii "$7$zU..../....salt") = some c →
      ¬ scrypt.Within c := by
    rintro c hc ⟨htable, -⟩
    rw [hcost, Option.some.injEq] at hc
    subst hc
    exact absurd htable (by decide)
  obtain ⟨-, hstarted, hrefused⟩ := derivations_within (m := scrypt) (by decide)
    ⟨384, Hashing.scratchSize⟩ (Bytes.ascii "x") (Bytes.ascii "$7$zU..../....salt")
  refine ⟨List.eq_nil_iff_forall_not_mem.2 fun c hc => ?_, hrefused hnot⟩
  obtain ⟨hwithin, stated, hstated, rfl | ⟨hne, -⟩⟩ := hstarted c hc
  · exact hnot _ hstated hwithin
  · exact hne rfl

/-- Lanes of 2 GiB are not refused for it. Too little scratch is noticed just ahead of the
    derivation, and with enough of it the derivation is started. -/
theorem derivations_within_lanes :
    (scrypt.traced ⟨384, Hashing.scratchSize⟩ (Bytes.ascii "x")
        (Bytes.ascii "$7$//......../salt")).started = [⟨2, 1, 2 ^ 24⟩] ∧
      2 ^ 30 < 128 * 1 * 2 ^ 24 ∧
      scrypt.hash ⟨384, 31⟩ (Bytes.ascii "x") (Bytes.ascii "$7$//......../salt") =
        .error .range := by
  have hs : ScryptHash.parse? (Bytes.ascii "$7$//......../salt") =
      some ⟨1, 1, 2 ^ 24, Bytes.ascii "salt"⟩ := by
    decide
  have hmemory : ScryptHash.memoryOk ⟨1, 1, 2 ^ 24, Bytes.ascii "salt"⟩ = true := by
    decide
  have hcost : ScryptHash.costOk ⟨1, 1, 2 ^ 24, Bytes.ascii "salt"⟩ = true := by decide
  refine ⟨?_, by decide, ?_⟩
  · exact ScryptHash.started_traced (by decide) hs hmemory hcost (by decide) _
  · simp only [hash, ScryptHash.hash, hs]
    rfl

end Method

end PassHash
