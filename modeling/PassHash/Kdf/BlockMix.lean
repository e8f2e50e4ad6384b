import PassHash.Kdf.Salsa20

/-!
# Block Mixing

The state of a memory-hard key derivation is an even number of blocks. It is mixed by running a core
function over them, each block added to the output for the one before it, and then putting the
outputs at even places ahead of those at odd ones.

## Main statements

- `BlockMix.length_mix`: mixing keeps the number of blocks
-/

namespace PassHash

namespace BlockMix

open Salsa20

/-- A state of the derivation. -/
abbrev Chunk := List Block

/-- The last block of a state. -/
def last (c : Chunk) : Block := c.getLastD (Vector.replicate 16 0)

/-- The outputs of a core function, each of whose inputs is a block added to the output before,
    which for the first block is the last block of the state. -/
def outputs (core : Block → Block) (c : Chunk) : Array Block :=
  (c.foldl (fun (x, ys) b =>
    let y := core (x.xor b)
    (y, ys.push y)) (last c, #[])).2

/-- The element at a place, with a zero block beyond the end. -/
def place (ys : Array Block) (i : Nat) : Block := ys.getD i (Vector.replicate 16 0)

/-- The outputs at even places, and then those at odd ones. -/
def evensThenOdds (ys : Array Block) : Chunk :=
  (List.range ((ys.size + 1) / 2)).map (fun i => place ys (2 * i)) ++
    (List.range (ys.size / 2)).map (fun i => place ys (2 * i + 1))

/-- The state after one mixing with a core function. -/
def mix (core : Block → Block) (c : Chunk) : Chunk := evensThenOdds (outputs core c)

/-- The blocks of two states added without carries. -/
def xor (a b : Chunk) : Chunk := List.zipWith Block.xor a b

theorem size_outputs (core : Block → Block) (c : Chunk) : (outputs core c).size = c.length := by
  have h : ∀ (x : Block) (ys : Array Block), (c.foldl (fun (x, ys) b =>
      let y := core (Block.xor x b)
      (y, ys.push y)) (x, ys)).2.size = ys.size + c.length := by
    induction c with
    | nil => simp
    | cons b bs ih =>
      intro x ys
      simp only [List.foldl_cons, ih, Array.size_push, List.length_cons]
      omega
  simp [outputs, h]

theorem length_mix (core : Block → Block) (c : Chunk) : (mix core c).length = c.length := by
  simp [mix, evensThenOdds, size_outputs]
  omega

end BlockMix

end PassHash
