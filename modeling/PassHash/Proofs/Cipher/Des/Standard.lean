import Mathlib.Data.List.Rotate
import PassHash.Cipher.Des.Basic

/-!
# DES Bit by Bit

The cipher of FIPS 46-3 as the standard writes it down: every permutation moves single bits, and
every substitution looks at six of them. The salt of the password schemes exchanges bits of the
expanded word. Nothing here is meant to be fast; it says what the cipher over words computes.

## Contents

- `Bits`, `Bits.select`: bits in the order of the standard, and the choice of bits by a table
- `expansion`, `finalPermutation`, `rotations`: the tables that the cipher over words does without
- `roundKey`: the key of a round
- `roundFunction`, `crypt`: the cipher with a salt
-/

namespace PassHash

namespace Des

namespace Standard

/-! ## Bits -/

/-- Bits, the most significant one first. -/
abbrev Bits := List Bool

namespace Bits

/-- The lowest `n` bits of a number. -/
def ofNat (n v : Nat) : Bits := (List.range n).map fun j => v.testBit (n - 1 - j)

/-- The number that bits stand for. -/
def toNat (b : Bits) : Nat := b.foldl (fun n x => 2 * n + x.toNat) 0

/-- The bits of a byte string. -/
def ofBytes (b : Bytes) : Bits := b.flatMap fun c => ofNat 8 c.toNat

/-- The bits that a table names by their positions, which count from 1. -/
def select (table : List Nat) (b : Bits) : Bits := table.map fun i => b.getD (i - 1) false

/-- Bits added without carries. -/
def xor (a b : Bits) : Bits := List.zipWith Bool.xor a b

end Bits

open Bits

/-! ## Tables -/

/-- The expansion of 32 bits to 48. -/
def expansion : List Nat := [
  32, 1, 2, 3, 4, 5, 4, 5, 6, 7, 8, 9, 8, 9, 10, 11, 12, 13, 12, 13, 14, 15, 16, 17,
  16, 17, 18, 19, 20, 21, 20, 21, 22, 23, 24, 25, 24, 25, 26, 27, 28, 29, 28, 29, 30, 31, 32, 1]

/-- The permutation that ends the cipher. -/
def finalPermutation : List Nat := [
  40, 8, 48, 16, 56, 24, 64, 32, 39, 7, 47, 15, 55, 23, 63, 31,
  38, 6, 46, 14, 54, 22, 62, 30, 37, 5, 45, 13, 53, 21, 61, 29,
  36, 4, 44, 12, 52, 20, 60, 28, 35, 3, 43, 11, 51, 19, 59, 27,
  34, 2, 42, 10, 50, 18, 58, 26, 33, 1, 41, 9, 49, 17, 57, 25]

/-- How far each round rotates the halves of the key. -/
def rotations : List Nat := [1, 1, 2, 2, 2, 2, 2, 2, 1, 2, 2, 2, 2, 2, 2, 1]

/-! ## Key schedule -/

/-- The halves of the key after a number of rounds. -/
def keyHalves (key : Bits) : (rounds : Nat) → Bits × Bits
  | 0 => ((select keyChoice key).take 28, (select keyChoice key).drop 28)
  | i + 1 =>
    let (c, d) := keyHalves key i
    (c.rotate (rotations.getD i 0), d.rotate (rotations.getD i 0))

/-- The key of round `i`, counted from zero. -/
def roundKey (key : Bits) (i : Nat) : Bits :=
  let (c, d) := keyHalves key (i + 1)
  select roundChoice (c ++ d)

/-! ## Rounds -/

/-- The expanded word with bits `i` and `i + 24` exchanged for every bit `i` of the salt. -/
def exchange (salt : UInt32) (b : Bits) : Bits :=
  (List.range 48).map fun i =>
    b.getD (if salt.toNat.testBit (i % 24) then (i + 24) % 48 else i) false

/-- The four bits that substitution `n` puts in the place of six: the outer two name a row of its
    table, the inner four a column. -/
def substitution (n : Nat) : Bits → Bits
  | [b₁, b₂, b₃, b₄, b₅, b₆] =>
    ofNat 4 ((substitutions.getD n #[]).getD (16 * toNat [b₁, b₆] + toNat [b₂, b₃, b₄, b₅]) 0)
  | _ => []

/-- The eight substitutions side by side. -/
def substituteAll (b : Bits) : Bits :=
  (List.range 8).flatMap fun n => substitution n ((b.drop (6 * n)).take 6)

/-- The round function. -/
def roundFunction (salt : UInt32) (key r : Bits) : Bits :=
  select outputPermutation (substituteAll (xor (exchange salt (select expansion r)) key))

/-- One round on the two halves of a block. -/
def round (salt : UInt32) (key : Bits) (b : Bits × Bits) : Bits × Bits :=
  (b.2, xor b.1 (roundFunction salt key b.2))

/-! ## Cipher -/

/-- The round whose key is applied in step `i`. -/
def keyIndex (direction : Direction) (i : Nat) : Nat :=
  match direction with
  | .encrypt => i
  | .decrypt => 15 - i

/-- The block, encrypted or decrypted under a key with a salt. -/
def crypt (direction : Direction) (salt : UInt32) (key block : Bits) : Bits :=
  let b := select initialPermutation block
  let (l, r) := Fin.foldl 16 (fun b i => round salt (roundKey key (keyIndex direction i)) b)
    (b.take 32, b.drop 32)
  select finalPermutation (r ++ l)

example : crypt .encrypt 0 (ofBytes [0x7c, 0xa1, 0x10, 0x45, 0x4a, 0x1a, 0x6e, 0x57])
    (ofBytes [0x01, 0xa1, 0xd6, 0xd0, 0x39, 0x77, 0x67, 0x42]) =
      ofBytes [0x69, 0x0f, 0x5b, 0x0d, 0x9a, 0x26, 0x93, 0x9b] := by
  decide +kernel

end Standard

end Des

end PassHash
