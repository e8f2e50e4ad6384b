import PassHash.Digest.Blake2b

/-!
# Argon2

A memory-hard key derivation. Memory is a matrix of blocks of 128 words, one row a lane, which is
filled column by column in four slices: each new block is compressed from the one before it in its
lane and one picked from the blocks already there. What picks it is the password-dependent contents
of the memory, a counter, or first the one and then the other.

## Contents

- `Argon2.Variant`, `Argon2.Version`, `Argon2.Cost`: parameters
- `Argon2.compress`: two blocks into one
- `Argon2.referenceIndex`: the block that is picked
- `Argon2.derive`: the derived key

## Main statements

- `Argon2.length_long`: the hash of variable length has the length asked for
-/

namespace PassHash

namespace Argon2

open Word

/-! ## Parameters -/

/-- How blocks are picked: by the memory's contents, by a counter, or by the counter in the first
    half of the first pass. -/
inductive Variant
  | d
  | i
  | id
  deriving DecidableEq, Repr

/-- The number of a variant in the hashed parameters. -/
def Variant.number : Variant → Nat
  | d => 0
  | i => 1
  | id => 2

/-- Versions: in the later one, passes after the first add to the blocks instead of replacing them.
    -/
inductive Version
  | v16
  | v19
  deriving DecidableEq, Repr

namespace Version

/-- The number of a version. -/
def number : Version → Nat
  | v16 => 16
  | v19 => 19

/-- The version of a number. -/
def ofNumber? (n : Nat) : Option Version := [v16, v19].find? (·.number == n)

end Version

/-- Memory in KiB, passes over it, and lanes. -/
structure Cost where
  memory : Nat
  passes : Nat
  lanes : Nat
  deriving DecidableEq, Repr

namespace Cost

/-- Whether the parameters lie in the bounds of the algorithm. -/
def ok (c : Cost) : Bool :=
  8 ≤ c.memory && 8 * c.lanes ≤ c.memory && 1 ≤ c.passes && 1 ≤ c.lanes && c.lanes ≤ 0xffffff

/-- The blocks of a lane in one slice. -/
def segment (c : Cost) : Nat := c.memory / (4 * c.lanes)

/-- The blocks of a lane. -/
def laneLength (c : Cost) : Nat := 4 * c.segment

/-- All blocks. -/
def blocks (c : Cost) : Nat := c.lanes * c.laneLength

end Cost

/-! ## Blocks -/

/-- A block of 1 KiB. -/
abbrev Block := Vector UInt64 128

namespace Block

/-- The block of zeros. -/
def zero : Block := Vector.replicate 128 0

/-- The block of 1024 bytes. -/
def ofBytes (b : Bytes) : Block :=
  let words := (wordsLE64 b).toArray
  Vector.ofFn fun i => words.getD i 0

/-- The bytes of a block. -/
def toBytes (b : Block) : Bytes := b.toList.flatMap bytesLE64

/-- The words of two blocks added without carries. -/
def xor (a b : Block) : Block := Vector.zipWith (· ^^^ ·) a b

end Block

/-- The sum of two words and twice the product of their lower halves. -/
def blend (a b : UInt64) : UInt64 := a + b + 2 * ((a &&& 0xffffffff) * (b &&& 0xffffffff))

/-- The mixing of four words of a block. -/
def mix (a b c d : Fin 128) (v : Block) : Block :=
  let x := blend (v.get a) (v.get b)
  let w := rotr64 (v.get d ^^^ x) 32
  let z := blend (v.get c) w
  let y := rotr64 (v.get b ^^^ z) 24
  let x := blend x y
  let w := rotr64 (w ^^^ x) 16
  let z := blend z w
  let y := rotr64 (y ^^^ z) 63
  put (put (put (put v a x) b y) c z) d w

/-- The permutation of sixteen words of a block, at the given places. -/
def permute (place : Fin 16 → Fin 128) (v : Block) : Block :=
  let v := mix (place 0) (place 4) (place 8) (place 12) v
  let v := mix (place 1) (place 5) (place 9) (place 13) v
  let v := mix (place 2) (place 6) (place 10) (place 14) v
  let v := mix (place 3) (place 7) (place 11) (place 15) v
  let v := mix (place 0) (place 5) (place 10) (place 15) v
  let v := mix (place 1) (place 6) (place 11) (place 12) v
  let v := mix (place 2) (place 7) (place 8) (place 13) v
  mix (place 3) (place 4) (place 9) (place 14) v

/-- The places of row `i` of the eight by eight matrix of word pairs. -/
def rowPlaces (i : Fin 8) (k : Fin 16) : Fin 128 := ⟨16 * i.val + k.val, by omega⟩

/-- The places of column `i`. -/
def columnPlaces (i : Fin 8) (k : Fin 16) : Fin 128 :=
  ⟨16 * (k.val / 2) + 2 * i.val + k.val % 2, by omega⟩

/-- Two blocks into one: their sum, permuted by rows and by columns, and added to itself. -/
def compress (a b : Block) : Block :=
  let sum := a.xor b
  let v := Fin.foldl 8 (fun v i => permute (rowPlaces i) v) sum
  let v := Fin.foldl 8 (fun v i => permute (columnPlaces i) v) v
  v.xor sum

/-! ## Hashes of variable length -/

/-- A byte string of length `len` out of a chain of digests, the last of which is shorter. -/
def chain (len : Nat) (v : Bytes) : Bytes :=
  if len ≤ 64 then Blake2b.digest len v
  else
    let v := Blake2b.digest 64 v
    v.take 32 ++ chain (len - 32) v
termination_by len

/-- A hash of `len` bytes. -/
def long (len : Nat) (m : Bytes) : Bytes := chain len (bytesLE32 (UInt32.ofNat len) ++ m)

theorem length_chain (len : Nat) (v : Bytes) : (chain len v).length = len := by
  fun_induction chain len v with
  | case1 len v h => exact Blake2b.length_digest h v
  | case2 len v h w ih =>
    rw [List.length_append, ih, List.length_take, Blake2b.length_digest (Nat.le_refl 64)]
    omega

theorem length_long (len : Nat) (m : Bytes) : (long len m).length = len := length_chain ..

/-! ## Picking blocks -/

/-- A place in the order of filling: pass, slice, lane, and block within the segment. -/
structure Position where
  pass : Nat
  slice : Nat
  lane : Nat
  index : Nat
  deriving DecidableEq, Repr

namespace Position

/-- Where the block lies in the memory. -/
def current (c : Cost) (q : Position) : Nat :=
  q.lane * c.laneLength + q.slice * c.segment + q.index

/-- Where the block before it in its lane lies, counted around. -/
def previous (c : Cost) (q : Position) : Nat :=
  if q.slice = 0 ∧ q.index = 0 then q.current c + c.laneLength - 1 else q.current c - 1

/-- Whether blocks are picked by a counter. -/
def byCounter (v : Variant) (q : Position) : Bool :=
  match v with
  | .d => false
  | .i => true
  | .id => q.pass == 0 && q.slice < 2

/-- How many blocks of a lane can be picked from. -/
def areaSize (c : Cost) (q : Position) (lane : Nat) : Nat :=
  -- the first pass sees the slices behind it, later ones all but the slice in work
  let finished := if q.pass = 0 then q.slice * c.segment else c.laneLength - c.segment
  if lane = q.lane then finished + q.index - 1
  else finished - (if q.index = 0 then 1 else 0)

/-- The lane that a random word picks; the first slice of all cannot see other lanes yet. -/
def referenceLane (c : Cost) (q : Position) (random : UInt64) : Nat :=
  if q.pass = 0 ∧ q.slice = 0 then q.lane else (random >>> 32).toNat % c.lanes

/-- Where the block lies that a random word picks; blocks filled lately are picked more often. -/
def referenceIndex (c : Cost) (q : Position) (random : UInt64) : Nat :=
  let lane := q.referenceLane c random
  let area := q.areaSize c lane
  let x := (random &&& 0xffffffff).toNat
  -- the square of a uniform number favours short distances back
  let back := (area * ((x * x) >>> 32)) >>> 32
  -- the oldest block stands right behind the segment in work
  let start := if q.pass ≠ 0 ∧ q.slice ≠ 3 then (q.slice + 1) * c.segment else 0
  lane * c.laneLength + (start + (area - 1 - back)) % c.laneLength

end Position

/-! ## Filling -/

/-- The block of 128 random words that the counter gives for the given position. -/
def counterBlock (v : Variant) (c : Cost) (q : Position) : Block :=
  let words := [q.pass, q.lane, q.slice, c.blocks, c.passes, v.number, q.index / 128 + 1]
  let input : Block := Vector.ofFn fun i => UInt64.ofNat (words.getD i 0)
  compress .zero (compress .zero input)

/-- The memory, and the random words of the counter that are in use. -/
structure State where
  memory : Array Block
  random : Block

/-- The state after one more block. -/
def fillBlock (v : Variant) (version : Version) (c : Cost) (q : Position) (first : Nat)
    (s : State) : State :=
  let ⟨memory, random⟩ := s
  -- a block of random words serves 128 blocks
  let random :=
    if q.byCounter v ∧ (q.index % 128 = 0 ∨ q.index = first) then counterBlock v c q else random
  let previous := memory.getD (q.previous c) .zero
  let word := if q.byCounter v then random.toArray.getD (q.index % 128) 0 else previous[0]
  let block := compress previous (memory.getD (q.referenceIndex c word) .zero)
  let place := q.current c
  let block :=
    if version = .v16 ∨ q.pass = 0 then block else block.xor (memory.getD place .zero)
  ⟨memory.setIfInBounds place block, random⟩

/-- The memory after one more segment. -/
def fillSegment (v : Variant) (version : Version) (c : Cost) (pass slice lane : Nat)
    (memory : Array Block) : Array Block :=
  -- the first two blocks of a lane are there from the start
  let first := if pass = 0 ∧ slice = 0 then 2 else 0
  (Nat.fold (c.segment - first) (fun i _ s =>
    fillBlock v version c ⟨pass, slice, lane, first + i⟩ first s) ⟨memory, .zero⟩).memory

/-- The memory with the first two blocks of every lane. -/
def startMemory (c : Cost) (seed : Bytes) : Array Block :=
  Nat.fold c.lanes (fun lane _ memory =>
    Nat.fold 2 (fun i _ memory =>
      memory.setIfInBounds (lane * c.laneLength + i)
        (.ofBytes (long 1024 (seed ++ bytesLE32 (UInt32.ofNat i) ++
          bytesLE32 (UInt32.ofNat lane))))) memory)
    (Array.replicate c.blocks .zero)

/-- The memory after all passes. -/
def fillMemory (v : Variant) (version : Version) (c : Cost) (memory : Array Block) : Array Block :=
  Nat.fold c.passes (fun pass _ memory =>
    Nat.fold 4 (fun slice _ memory =>
      Nat.fold c.lanes (fun lane _ memory => fillSegment v version c pass slice lane memory)
        memory) memory) memory

/-! ## Derivation -/

/-- A byte string with its length ahead of it. -/
def withLength (b : Bytes) : Bytes := bytesLE32 (UInt32.ofNat b.length) ++ b

/-- The digest of all inputs; key and associated data are empty. -/
def seed (v : Variant) (version : Version) (c : Cost) (len : Nat) (password salt : Bytes) : Bytes :=
  let numbers := [c.lanes, len, c.memory, c.passes, version.number, v.number]
  Blake2b.digest 64 ((numbers.flatMap fun n => bytesLE32 (UInt32.ofNat n)) ++
    withLength password ++ withLength salt ++ withLength [] ++ withLength [])

/-- A key of `len` bytes. -/
def derive (v : Variant) (version : Version) (c : Cost) (len : Nat) (password salt : Bytes) :
    Bytes :=
  let memory := fillMemory v version c (startMemory c (seed v version c len password salt))
  let sum := Nat.fold c.lanes (fun lane _ sum =>
    Block.xor sum (memory.getD (lane * c.laneLength + c.laneLength - 1) .zero)) Block.zero
  long len sum.toBytes

theorem length_derive (v : Variant) (version : Version) (c : Cost) (len : Nat)
    (password salt : Bytes) : (derive v version c len password salt).length = len :=
  length_long ..

end Argon2

end PassHash
