import PassHash.Base64.Alphabet

/-!
# Base 64, Low Bits First

Most schemes read three bytes as one number and write it as four characters, the least significant
six bits first; a short last group takes as many characters as its bits need. A number of any size
is written in the same way with a fixed count of characters.

## Contents

- `digits`, `number?`: a number and its characters
- `group`: up to three bytes, the most significant first
- `scatter`: a digest through an order of its byte positions
- `encodeLow`, `decodeLow?`: byte strings in groups of three

## Main statements

- `length_digits`, `number?_digits`: the characters of a number give it back
- `has_of_mem_digits`, `has_of_mem_scatter`: only characters of the alphabet are written
-/

namespace PassHash

namespace Base64

open Alphabet

/-! ## Numbers -/

/-- The `n` lowest base-64 digits of a number, the lowest first. -/
def digits : (n v : Nat) → Bytes
  | 0, _ => []
  | n + 1, v => crypt.char (v % 64) :: digits n (v / 64)

/-- The number with the given base-64 digits, the lowest first. -/
def number? : Bytes → Option Nat
  | [] => some 0
  | c :: s => do
    let low ← crypt.value? c
    let high ← number? s
    pure (low + 64 * high)

@[simp] theorem length_digits (n v : Nat) : (digits n v).length = n := by
  induction n generalizing v with
  | zero => rfl
  | succ n ih => simp [digits, ih]

theorem number?_digits (n v : Nat) : number? (digits n v) = some (v % (1 <<< (6 * n))) := by
  induction n generalizing v with
  | zero => simp [digits, number?, Nat.mod_one]
  | succ n ih =>
    have hv : v % 64 < 64 := Nat.mod_lt _ (by decide)
    have hs : 1 <<< (6 * (n + 1)) = 64 * 1 <<< (6 * n) := by
      rw [Nat.one_shiftLeft, Nat.one_shiftLeft, Nat.mul_add, Nat.pow_add, Nat.mul_comm]
    rw [digits, number?, value?_char _ hv, ih, hs, Nat.mod_mul]
    rfl

theorem has_of_mem_digits {n v : Nat} {c : UInt8} (h : c ∈ digits n v) : crypt.has c = true := by
  induction n generalizing v with
  | zero => simp [digits] at h
  | succ n ih =>
    rcases List.mem_cons.1 h with rfl | h
    · exact has_char ..
    · exact ih h

/-! ## Groups -/

/-- How many characters carry the bits of `n` bytes. -/
def charsFor (n : Nat) : Nat := (8 * n + 5) / 6

/-- The number that bytes stand for, the most significant first. -/
def bigEndian (bs : Bytes) : Nat := bs.foldl (fun n b => 256 * n + b.toNat) 0

/-- A group of bytes, given from the most significant down, as characters. -/
def group (bs : Bytes) : Bytes := digits (charsFor bs.length) (bigEndian bs)

/-- The bytes of a digest at the listed positions, each list one group. -/
def scatter (order : List (List Nat)) (digest : Bytes) : Bytes :=
  order.flatMap fun positions => group (positions.map fun i => digest.getD i 0)

theorem has_of_mem_scatter {order : List (List Nat)} {digest : Bytes} {c : UInt8}
    (h : c ∈ scatter order digest) : crypt.has c = true := by
  obtain ⟨positions, -, hc⟩ := List.mem_flatMap.1 h
  exact has_of_mem_digits hc

/-! ## Byte strings -/

/-- A byte string in groups of three bytes, the first byte of a group in its lowest bits. -/
def encodeLow : Bytes → Bytes
  | a :: b :: c :: rest => group [c, b, a] ++ encodeLow rest
  | [a, b] => group [b, a]
  | [a] => group [a]
  | [] => []

/-- The `n` low bytes of a number, the lowest first. -/
def lowBytes : (n v : Nat) → Bytes
  | 0, _ => []
  | n + 1, v => UInt8.ofNat (v % 256) :: lowBytes n (v / 256)

/-- The whole bytes that a group of characters carries: at least one, with the bits beyond them
    zero. -/
def decodeGroup? (chars : Bytes) : Option Bytes := do
  let v ← number? chars
  let n := 6 * chars.length / 8
  if n = 0 ∨ 1 <<< (8 * n) ≤ v then none else some (lowBytes n v)

/-- The byte string that `encodeLow` writes as the given characters. -/
def decodeLow? : Bytes → Option Bytes
  | [] => some []
  | a :: b :: c :: d :: rest => do
    let bytes ← decodeGroup? [a, b, c, d]
    let more ← decodeLow? rest
    pure (bytes ++ more)
  | short => decodeGroup? short

end Base64

end PassHash
