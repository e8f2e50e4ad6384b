import PassHash.Kdf.Scrypt
import PassHash.Kdf.Yescrypt.Basic
import PassHash.Proofs.Kdf.Yescrypt.Basic

/-!
# Key Derivations as They Start

Which key derivations a hash starts cannot be seen from its result. A traced computation keeps a
list of them beside the result: a check adds nothing to the list, and a derivation that starts adds
its sizes. Without the list it is the computation itself.

Yescrypt derives the key of a large table in two steps, and checks the sizes of each step just ahead
of it. All checks of the first step pass when those of the second do, so the result is the same as
with one check ahead of both; but when the second is refused for its memory, the first may have run.

## Contents

- `Traced`: a result and the sizes of the derivations that were started for it
- `Traced.Keeps`: all derivations have a property, and none is refused for lack of randomness
- `Yescrypt.traced`: the key, with the derivations that were started

## Main statements

- `Traced.Keeps.bind`: traced computations in sequence
- `Yescrypt.result_traced`: without the trace there is the key
- `Yescrypt.keeps_traced`: the sizes of every step that starts are within the memory
-/

namespace PassHash

/-- A computation that may be refused, with the sizes of the derivations that it has started. -/
structure Traced (α : Type) where
  started : List Scrypt.Cost
  result : Except Failure α

namespace Traced

variable {α β : Type}

/-- What a refused computation has started stays started. -/
def bind (x : Traced α) (f : α → Traced β) : Traced β :=
  match x.result with
  | .error e => ⟨x.started, .error e⟩
  | .ok a => ⟨x.started ++ (f a).started, (f a).result⟩

instance : Monad Traced where
  pure a := ⟨[], .ok a⟩
  bind := bind

/-- A computation that starts no derivation. -/
def check (x : Except Failure α) : Traced α := ⟨[], x⟩

/-- The start of a derivation. -/
def start (c : Scrypt.Cost) : Traced Unit := ⟨[c], .ok ()⟩

@[simp] theorem result_check (x : Except Failure α) : (check x).result = x := rfl

@[simp] theorem result_start (c : Scrypt.Cost) : (start c).result = .ok () := rfl

@[simp] theorem result_pure (a : α) : (pure a : Traced α).result = .ok a := rfl

/-- The results in sequence are those of the computations without the trace. -/
@[simp] theorem result_bind (x : Traced α) (f : α → Traced β) :
    (x >>= f).result = x.result >>= fun a => (f a).result := by
  show (x.bind f).result = _
  rw [bind]
  cases x.result <;> rfl

/-- A computation that comes to a result hands on what it has started. -/
theorem started_bind {x : Traced α} {a : α} (h : x.result = .ok a) (f : α → Traced β) :
    (x >>= f).started = x.started ++ (f a).started := by
  show (x.bind f).started = _
  rw [bind, h]

/-- All derivations that were started have a property, and the computation was not refused for lack
    of randomness. -/
structure Keeps (P : Scrypt.Cost → Prop) (x : Traced α) : Prop where
  started : ∀ c ∈ x.started, P c
  result : x.result ≠ .error .noEntropy

namespace Keeps

variable {P : Scrypt.Cost → Prop}

theorem mono {Q : Scrypt.Cost → Prop} {x : Traced α} (hx : Keeps P x) (h : ∀ c, P c → Q c) :
    Keeps Q x :=
  ⟨fun c hc => h c (hx.started c hc), hx.result⟩

theorem pure (a : α) : Keeps P (pure a : Traced α) := ⟨by simp [Pure.pure], nofun⟩

theorem start {c : Scrypt.Cost} (h : P c) : Keeps P (start c) := ⟨by simpa [Traced.start], nofun⟩

theorem check {x : Except Failure α} (h : x ≠ .error .noEntropy) : Keeps P (check x) :=
  ⟨by simp [Traced.check], h⟩

theorem need (available needed : Nat) : Keeps P (Traced.check (Room.need available needed)) := by
  apply check
  unfold Room.need
  split <;> nofun

theorem fit (available : Nat) (text : Bytes) :
    Keeps P (Traced.check (Room.fit available text)) := by
  apply check
  intro h
  rw [Room.fit, Room.need] at h
  split at h
  · cases h
  · cases h

theorem orInvalid (a? : Option α) : Keeps P (Traced.check (Failure.orInvalid a?)) := by
  apply check
  cases a? <;> nofun

theorem unlessInvalid (c : Bool) : Keeps P (Traced.check (Failure.unlessInvalid c)) := by
  apply check
  cases c <;> nofun

/-- What comes second is reached only with the result of what comes first. -/
theorem bind {x : Traced α} {f : α → Traced β} (hx : Keeps P x)
    (hf : ∀ a, x.result = .ok a → Keeps P (f a)) : Keeps P (x >>= f) := by
  show Keeps P (x.bind f)
  have hnext := hx.result
  rw [Traced.bind]
  cases hr : x.result with
  | error e =>
    rw [hr, ne_eq, Except.error.injEq] at hnext
    exact ⟨hx.started, fun h => hnext (Except.error.inj h)⟩
  | ok a =>
    refine ⟨fun c hc => ?_, (hf a hr).result⟩
    rcases List.mem_append.1 hc with hc | hc
    · exact hx.started c hc
    · exact (hf a hr).started c hc

end Keeps

end Traced

/-! ## Yescrypt -/

namespace Yescrypt

open Traced

variable {password salt : Bytes} {q : Params}

/-- The sizes of a derivation, or of its last step. -/
def Params.cost (q : Params) : Scrypt.Cost := ⟨q.n, q.r, q.p⟩

/-- Whether the table and all lanes fit the memory. -/
def Params.Fits (q : Params) : Prop :=
  128 * q.r * q.n ≤ Params.maxMemory ∧ 128 * q.r * q.p ≤ Params.maxMemory

instance (q : Params) : Decidable q.Fits := inferInstanceAs (Decidable (_ ∧ _))

/-- Refuses one step of a derivation. -/
def Params.stepChecked (q : Params) : Except Failure Unit := do
  Failure.unlessInvalid (q.modeOk && q.sizesOk)
  if q.Fits then .ok () else .error .noMemory

/-- One step of a derivation, after a check of its own. -/
def tracedStep (step : Step) (password salt : Bytes) (q : Params) : Traced Bytes := do
  check q.stepChecked
  start q.cost
  pure (deriveStep step password salt q)

/-- The key, in one step or in two. -/
def traced (password salt : Bytes) (q : Params) : Traced Bytes := do
  check (Failure.unlessInvalid (q.g == 0 && q.nrom == 0))
  if q.needsPrehash then
    let password ← tracedStep .prehash password salt q.prehash
    tracedStep .main password salt q
  else tracedStep .main password salt q

theorem result_tracedStep (step : Step) (password salt : Bytes) (q : Params) :
    (tracedStep step password salt q).result =
      q.stepChecked >>= fun _ => pure (deriveStep step password salt q) := by
  rw [tracedStep, result_bind, result_check]
  rfl

theorem stepChecked_ne_noEntropy (q : Params) : q.stepChecked ≠ .error .noEntropy := by
  rw [Params.stepChecked]
  cases q.modeOk && q.sizesOk with
  | false => nofun
  | true =>
    show (if q.Fits then _ else _) ≠ _
    split <;> nofun

theorem stepChecked_eq_ok_iff :
    q.stepChecked = .ok () ↔ (q.modeOk && q.sizesOk) = true ∧ q.Fits := by
  rw [Params.stepChecked, Checks.unlessInvalid_bind_eq_ok_iff]
  split <;> simp [*]

theorem fits_of_checked (h : q.checked = .ok ()) : q.Fits := by
  rw [Params.checked, Checks.unlessInvalid_bind_eq_ok_iff] at h
  exact (stepChecked_eq_ok_iff.1 h.2).2

/-! ### Two steps -/

theorem sizesOk_iff : q.sizesOk = true ↔
    2 ≤ q.n ∧ q.n = floorPow2 q.n ∧ 1 ≤ q.r ∧ 1 ≤ q.p ∧ q.r * q.p < 1 <<< 30 ∧
      (q.mode.isReadWrite = true → 1 < q.n / q.p) := by
  simp only [Params.sizesOk, Bool.and_eq_true, Bool.or_eq_true, decide_eq_true_eq, beq_iff_eq,
    Bool.not_eq_true', and_assoc]
  cases q.mode.isReadWrite <;> simp

/-- The sizes of the first step are those of the second, but for the table, which has a power of two
    states in both. -/
theorem sizesOk_prehash (hn : ∃ k, q.n = 2 ^ k) (hpre : q.needsPrehash = true) :
    (q.prehash.modeOk && q.prehash.sizesOk) = (q.modeOk && q.sizesOk) := by
  simp only [Params.needsPrehash, Bool.and_eq_true, decide_eq_true_eq] at hpre
  obtain ⟨⟨hmode, hlane⟩, -⟩ := hpre
  have hmodeOk : q.prehash.modeOk = q.modeOk := by
    cases hq : q.mode <;> simp [Params.modeOk, Params.prehash, hq, Mode.isReadWrite] at hmode ⊢
  -- a lane has 256 states or more, and so has the table
  have hle : 0x100 ≤ q.n := Nat.le_trans hlane (Nat.div_le_self ..)
  have hlane' : 1 < q.n / 64 / q.p := by
    rw [Nat.div_div_eq_div_mul, Nat.mul_comm, ← Nat.div_div_eq_div_mul]
    omega
  obtain ⟨k, hk⟩ := hn
  have hk' : q.n / 64 = 2 ^ (k - 6) := by
    have hsix : 6 ≤ k := by
      by_contra hlt
      have hpow := Nat.pow_le_pow_right (n := 2) (by decide) (Nat.le_of_not_le hlt)
      omega
    rw [hk, show 64 = 2 ^ 6 from rfl, Nat.pow_div hsix (by decide)]
  have hpower : q.n = floorPow2 q.n := eq_floorPow2_iff.2 ⟨k, hk⟩
  have hpower' : q.n / 64 = floorPow2 (q.n / 64) := eq_floorPow2_iff.2 ⟨_, hk'⟩
  have hsizes : q.prehash.sizesOk = q.sizesOk := by
    rw [Bool.eq_iff_iff, sizesOk_iff, sizesOk_iff]
    constructor
    · rintro ⟨-, -, hr, hp, hrp, -⟩
      exact ⟨by omega, hpower, hr, hp, hrp, fun _ => by omega⟩
    · rintro ⟨-, -, hr, hp, hrp, -⟩
      exact ⟨(by omega : 2 ≤ q.n / 64), hpower', hr, hp, hrp, fun _ => hlane'⟩
  rw [hmodeOk, hsizes]

theorem fits_prehash (h : q.Fits) : q.prehash.Fits := by
  refine ⟨Nat.le_trans ?_ h.1, h.2⟩
  exact Nat.mul_le_mul_left _ (Nat.div_le_self ..)

/-- A first step that is refused is refused for what the second would be refused for. -/
theorem stepChecked_prehash (hn : ∃ k, q.n = 2 ^ k) (hpre : q.needsPrehash = true) :
    q.prehash.stepChecked = .ok () ∨ q.prehash.stepChecked = q.stepChecked := by
  rw [Params.stepChecked, Params.stepChecked, sizesOk_prehash hn hpre]
  cases q.modeOk && q.sizesOk with
  | false => exact .inr rfl
  | true =>
    by_cases hfits : q.prehash.Fits
    · exact .inl (if_pos hfits)
    · have hnot : ¬ q.Fits := fun h => hfits (fits_prehash h)
      right
      rw [if_neg hfits, if_neg hnot]

/-- Without the trace there is the key. -/
theorem result_traced (hn : ∃ k, q.n = 2 ^ k) (password salt : Bytes) :
    (traced password salt q).result = derive password salt q := by
  have hchecked : q.checked =
      Failure.unlessInvalid (q.g == 0 && q.nrom == 0) >>= fun _ => q.stepChecked := rfl
  rw [traced, result_bind, result_check, derive, hchecked, derivedKey]
  cases Failure.unlessInvalid (q.g == 0 && q.nrom == 0) with
  | error e => rfl
  | ok _ =>
    show (ite _ _ _ : Traced Bytes).result = q.stepChecked >>= fun _ => pure _
    by_cases hpre : q.needsPrehash = true
    · rw [if_pos hpre, if_pos hpre, result_bind, result_tracedStep]
      -- the first step comes to the second, or both are refused alike
      rcases stepChecked_prehash hn hpre with hok | hsame
      · rw [hok]
        exact result_tracedStep ..
      · rw [hsame]
        cases hq : q.stepChecked with
        | error e => rfl
        | ok _ =>
          refine (result_tracedStep ..).trans ?_
          rw [hq]
    · rw [if_neg hpre, if_neg hpre]
      exact result_tracedStep ..

/-- The sizes of a step that starts are its own, and fit the memory. -/
theorem keeps_tracedStep (step : Step) (password salt : Bytes) (q : Params) :
    Keeps (fun c => c = q.cost ∧ q.Fits) (tracedStep step password salt q) := by
  refine .bind (.check (stepChecked_ne_noEntropy q)) fun _ hchecked => ?_
  exact .bind (.start ⟨rfl, (stepChecked_eq_ok_iff.1 hchecked).2⟩) fun _ _ => .pure _

/-- The sizes that are started with are those of the derivation or of its first step, and fit the
    memory. -/
theorem keeps_traced (password salt : Bytes) (q : Params) :
    Keeps (fun c => (c = q.cost ∧ q.Fits) ∨ (c = q.prehash.cost ∧ q.prehash.Fits))
      (traced password salt q) := by
  have hmain : ∀ password, Keeps (fun c => (c = q.cost ∧ q.Fits) ∨
      (c = q.prehash.cost ∧ q.prehash.Fits)) (tracedStep .main password salt q) :=
    fun password => (keeps_tracedStep .main password salt q).mono fun _ => .inl
  refine .bind (.unlessInvalid _) fun _ _ => ?_
  split
  · refine .bind ?_ fun password _ => hmain password
    exact (keeps_tracedStep .prehash password salt q.prehash).mono fun _ => .inr
  · exact hmain password

end Yescrypt

end PassHash
