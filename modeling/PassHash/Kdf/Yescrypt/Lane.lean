import PassHash.Kdf.Yescrypt.SBox

/-!
# Lanes

A lane fills its part of a table with successive states, and then reads the table at places that the
state itself decides. In the read-write mode it reads back while it fills, and writes what it has
read.

## Contents

- `Lane`: the state of a lane, with its S-box in the read-write mode
- `floorPow2`, `wrapBelow`: places for reading
- `Lane.fill`, `Lane.lookUp`: the two halves of a lane's work
-/

namespace PassHash

namespace Yescrypt

open Salsa20 BlockMix

/-- A lane: its blocks in diagonal order, and its S-box in the read-write mode. -/
structure Lane where
  blocks : Chunk
  sbox? : Option SBox

namespace Lane

/-- The lane of `2 * r` blocks at the start of a byte string. -/
def ofBytes (r : Nat) (b : Bytes) : Lane := ⟨(Block.listOfBytes (2 * r) b).map diagonal, none⟩

/-- The bytes of the blocks of a lane. -/
def toBytes (l : Lane) : Bytes := l.blocks.flatMap fun b => (undiagonal b).toBytes

/-- The lane after one mixing. -/
def mix (l : Lane) : Lane :=
  match l with
  | ⟨blocks, none⟩ => ⟨BlockMix.mix (core 4) blocks, none⟩
  | ⟨blocks, some sbox⟩ =>
    let (sbox, blocks) := sbox.mix blocks
    ⟨blocks, some sbox⟩

/-- The number that decides which place is read next: the first two words of the last block. -/
def integerify (l : Lane) : Nat :=
  let b := last l.blocks
  (b.get 0).toNat + ((b.get 13).toNat <<< 32)

/-- The lane with a state added to its own. -/
def add (l : Lane) (c : Chunk) : Lane := { l with blocks := xor l.blocks c }

end Lane

/-! ## Places -/

/-- The greatest power of two that is not above a positive number. -/
def floorPow2 (x : Nat) : Nat := 1 <<< x.log2

/-- A place below `i`, one of the last `floorPow2 i`. -/
def wrapBelow (x i : Nat) : Nat := x % floorPow2 i + (i - floorPow2 i)

namespace Lane

/-! ## Filling and reading a table -/

/-- The lane and the table after `n` states were appended. The lane's part of the table starts where
    the table ended; with `readBack`, each state from the third on is mixed with an earlier one. -/
def fill (readBack : Bool) (n : Nat) (table : Array Chunk) (l : Lane) : Array Chunk × Lane :=
  let base := table.size
  Nat.fold n (fun i _ (table, l) =>
    let table := table.push l.blocks
    -- the place comes from the state before anything is added to it
    let l := if readBack ∧ 1 < i then
        l.add (table.getD (base + wrapBelow l.integerify i) []) else l
    (table, l.mix)) (table, l)

/-- The lane and the table after `count` reads of the `n` states from `base` on; with `writeBack`,
    what was read is replaced by the sum. -/
def lookUp (writeBack : Bool) (base n count : Nat) (table : Array Chunk) (l : Lane) :
    Array Chunk × Lane :=
  Nat.fold count (fun _ _ (table, l) =>
    let place := base + l.integerify % n
    let l := l.add (table.getD place [])
    (if writeBack then table.setIfInBounds place l.blocks else table, l.mix)) (table, l)

/-- The number of states that make a lane's S-box. -/
def sboxStates : Nat := 96

/-- The lane with an S-box made from its first two blocks, which change on the way. -/
def withSBox (l : Lane) : Lane :=
  let (table, seed) := fill false sboxStates #[] ⟨l.blocks.take 2, none⟩
  let words := table.foldl (fun words c => c.foldl (fun words b => words ++ b.toArray) words) #[]
  ⟨seed.blocks ++ l.blocks.drop 2, some (SBox.start words)⟩

end Lane

end Yescrypt

end PassHash
