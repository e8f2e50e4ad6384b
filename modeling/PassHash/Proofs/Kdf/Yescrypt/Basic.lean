import Mathlib.Algebra.Ring.Nat
import PassHash.Kdf.Yescrypt.Basic
import PassHash.Proofs.Checks

/-!
# Derived Keys of Yescrypt

When the derivation gives a key, and how long the key is.

## Main statements

- `Yescrypt.derive_eq_ok_iff`: there is a key exactly for admissible parameters
- `Yescrypt.checked_classic_iff`: the admissible parameters of the classic mode
- `Yescrypt.length_derivedKey`: a key has 32 bytes
-/

namespace PassHash

namespace Yescrypt

theorem derive_eq_ok_iff {password salt key : Bytes} {q : Params} :
    derive password salt q = .ok key ↔
      q.checked = .ok () ∧ derivedKey password salt q = key := by
  rw [derive, Checks.bind_eq_ok_iff]
  constructor
  · rintro ⟨_, hchecked, hkey⟩
    exact ⟨hchecked, Except.ok.inj hkey⟩
  · rintro ⟨hchecked, rfl⟩
    exact ⟨(), hchecked, rfl⟩

theorem eq_floorPow2_iff {n : Nat} : n = floorPow2 n ↔ ∃ k, n = 2 ^ k := by
  rw [floorPow2, Nat.one_shiftLeft]
  constructor
  · intro h
    exact ⟨n.log2, h⟩
  · rintro ⟨k, rfl⟩
    rw [Nat.log2_two_pow]

/-- The classic mode takes tables of a power of two states. The table, and all lanes together, must
    fit the memory. -/
theorem checked_classic_iff {n r p : Nat} :
    Params.checked ⟨.classic, n, r, p, 0, 0, 0⟩ = .ok () ↔
      (∃ k, 0 < k ∧ n = 2 ^ k) ∧ 0 < r ∧ 0 < p ∧ 128 * r * n ≤ Params.maxMemory ∧
        128 * r * p ≤ Params.maxMemory := by
  have hpower : 2 ≤ n ∧ n = floorPow2 n ↔ ∃ k, 0 < k ∧ n = 2 ^ k := by
    rw [eq_floorPow2_iff]
    constructor
    · rintro ⟨htwo, k, rfl⟩
      refine ⟨k, Nat.pos_of_ne_zero ?_, rfl⟩
      rintro rfl
      omega
    · rintro ⟨k, hk, rfl⟩
      exact ⟨Nat.le_self_pow (Nat.ne_of_gt hk) 2, k, rfl⟩
  have hproduct : 128 * r * p ≤ Params.maxMemory → r * p < 1 <<< 30 := by
    rw [Nat.mul_assoc, Params.maxMemory]
    omega
  rw [Params.checked, Checks.unlessInvalid_bind_eq_ok_iff, Checks.unlessInvalid_bind_eq_ok_iff,
    ← hpower]
  simp only [Params.modeOk, Params.sizesOk, Mode.isReadWrite, beq_self_eq_true, Bool.and_eq_true,
    Bool.not_false, Bool.true_or, decide_eq_true_eq, beq_iff_eq, true_and, and_true]
  constructor
  · rintro ⟨⟨⟨⟨hn, hr⟩, hp⟩, -⟩, hmemory⟩
    split at hmemory
    · next hfits => exact ⟨hn, hr, hp, hfits⟩
    · cases hmemory
  · rintro ⟨hn, hr, hp, hfits⟩
    exact ⟨⟨⟨⟨hn, hr⟩, hp⟩, hproduct hfits.2⟩, if_pos hfits⟩

theorem length_deriveStep_main (password salt : Bytes) (q : Params) :
    (deriveStep .main password salt q).length = 32 := by
  have hpbkdf2 : ∀ password salt : Bytes,
      (Pbkdf2.derive Sha256.hash password salt 32).length = 32 :=
    fun password salt => Pbkdf2.length_derive Sha256.hash (by decide) password salt 32
  unfold deriveStep
  split
  · exact hpbkdf2 _ _
  · split
    · exact Sha256.hash.length_digest _
    · next hstep => cases hstep

theorem length_derivedKey (password salt : Bytes) (q : Params) :
    (derivedKey password salt q).length = 32 :=
  length_deriveStep_main ..

end Yescrypt

end PassHash
