import PassHash.Digest.Basic

/-!
# HMAC and PBKDF2

A keyed hash from any hash function, and the key derivation that chains it over a counter.

## Main statements

- `Hmac.length_tag`: a tag has the size of a digest
- `Pbkdf2.length_derive`: a derived key has the length asked for
-/

namespace PassHash

namespace Hmac

/-- The key as one block: a key longer than a block is hashed first. -/
def keyBlock (h : HashFunction) (key : Bytes) : Bytes :=
  let short := if key.length > h.blockSize then h.digest key else key
  short ++ List.replicate (h.blockSize - short.length) 0

/-- The tag of a message under a key. -/
def tag (h : HashFunction) (key m : Bytes) : Bytes :=
  let block := keyBlock h key
  h.digest (block.map (· ^^^ 0x5c) ++ h.digest (block.map (· ^^^ 0x36) ++ m))

theorem length_tag (h : HashFunction) (key m : Bytes) : (tag h key m).length = h.digestSize :=
  h.length_digest _

end Hmac

namespace Pbkdf2

/-- Block `i` of the derived key for one iteration. -/
def block (h : HashFunction) (password salt : Bytes) (i : Nat) : Bytes :=
  Hmac.tag h password (salt ++ Word.bytesBE32 (UInt32.ofNat i))

/-- A key of `len` bytes, derived with one iteration. -/
def derive (h : HashFunction) (password salt : Bytes) (len : Nat) : Bytes :=
  let count := (len + h.digestSize - 1) / h.digestSize
  ((List.range count).flatMap fun i => block h password salt (i + 1)).take len

theorem length_derive (h : HashFunction) (hpos : 0 < h.digestSize) (password salt : Bytes)
    (len : Nat) : (derive h password salt len).length = len := by
  have hsum : ∀ n, ((List.range n).flatMap fun i => block h password salt (i + 1)).length =
      n * h.digestSize := by
    intro n
    induction n with
    | zero => simp
    | succ n ih =>
      rw [List.range_succ, List.flatMap_append, List.length_append, ih]
      simp [block, Hmac.length_tag, Nat.succ_mul]
  rw [derive, List.length_take, hsum]
  have := Nat.div_add_mod (len + h.digestSize - 1) h.digestSize
  have hm := Nat.mod_lt (len + h.digestSize - 1) hpos
  rw [Nat.mul_comm]
  omega

end Pbkdf2

end PassHash
