import PassHash.Digest.Hmac
import PassHash.Digest.Sha256
import PassHash.Failure
import PassHash.Kdf.Yescrypt.Lane

/-!
# Yescrypt

The memory-hard key derivation that extends scrypt. Its classic mode is scrypt. The write-once mode
keys PBKDF2 with a hash of the password and can look up more often; the read-write mode moreover
mixes with S-boxes, lets its lanes share one table, and derives the key of a large table in two
steps, of which the first runs on a table 64 times smaller.

## Contents

- `Mode`, `Params`, `Params.checked`: parameters and the bounds on them
- `LoopCounts`: how often a table is read
- `derive`: the derived key of 32 bytes
-/

namespace PassHash

namespace Yescrypt

open Salsa20 BlockMix

/-! ## Parameters -/

/-- Modes of operation. The read-write mode has a flavor of eight bits. -/
inductive Mode
  | classic
  | writeOnce
  | readWrite (flavor : Nat)
  deriving DecidableEq, Repr

namespace Mode

/-- The one flavor that is supported: six rounds, four parts of two lanes, 12 KiB of S-box. -/
def supportedFlavor : Nat := 0x2d

/-- Whether the mode is read-write. -/
def isReadWrite : Mode → Bool
  | readWrite _ => true
  | _ => false

end Mode

/-- Cost parameters: mode, states in the table, pairs of blocks in a state, lanes, time, upgrades,
    and states in a read-only table. -/
structure Params where
  mode : Mode
  n : Nat
  r : Nat
  p : Nat
  t : Nat
  g : Nat
  nrom : Nat
  deriving DecidableEq, Repr

namespace Params

/-- The most bytes of a table, and of all lanes. -/
def maxMemory : Nat := 1 <<< 30

/-- Whether the mode is supported with the time parameter. -/
def modeOk (q : Params) : Bool :=
  match q.mode with
  | .classic => q.t == 0
  | .writeOnce => true
  | .readWrite flavor => flavor == Mode.supportedFlavor

/-- Whether the numbers lie in the bounds of the algorithm. -/
def sizesOk (q : Params) : Bool :=
  2 ≤ q.n && q.n == floorPow2 q.n && 1 ≤ q.r && 1 ≤ q.p && q.r * q.p < 1 <<< 30 &&
    (!q.mode.isReadWrite || 1 < q.n / q.p)

/-- Refuses what is out of bounds, and then what takes too much memory. -/
def checked (q : Params) : Except Failure Unit := do
  Failure.unlessInvalid (q.g == 0 && q.nrom == 0)
  Failure.unlessInvalid (q.modeOk && q.sizesOk)
  if 128 * q.r * q.n ≤ maxMemory ∧ 128 * q.r * q.p ≤ maxMemory then .ok () else .error .noMemory

end Params

/-! ## Loop counts -/

/-- An even number, at most one above the given one. -/
def evenCeil (n : Nat) : Nat := (n + 1) / 2 * 2

/-- An even number, at most one below the given one. -/
def evenFloor (n : Nat) : Nat := n / 2 * 2

/-- How the states of a table are shared among lanes, and how often each lane reads. -/
structure LoopCounts where
  /-- States in the part of every lane but the last. -/
  chunk : Nat
  /-- Reads of the lane's own part, with writing. -/
  own : Nat
  /-- Reads of the whole table, without writing. -/
  whole : Nat
  deriving DecidableEq, Repr

namespace LoopCounts

/-- All reads of a lane with `chunk` states, before rounding. -/
def reads (readWrite : Bool) (chunk t : Nat) : Nat :=
  if readWrite then
    match t with
    | 0 => (chunk + 2) / 3
    | 1 => (2 * chunk + 2) / 3
    | t + 2 => chunk * (t + 1)
  else
    match t with
    | 0 => chunk
    | 1 => chunk + (chunk + 1) / 2
    | t => chunk * t

/-- The counts for a table of `n` states and `p` lanes. -/
def ofSizes (readWrite : Bool) (n p t : Nat) : LoopCounts :=
  let all := reads readWrite (n / p) t
  -- a lane mixes with its own part while the others may still write theirs
  let own := if readWrite then evenCeil (all / p) else 0
  ⟨evenFloor (n / p), own, evenCeil all - own⟩

end LoopCounts

/-! ## Mixing -/

/-- One lane through a table of its own, without writing. -/
def mixAlone (n t : Nat) (l : Lane) : Lane :=
  let counts := LoopCounts.ofSizes false n 1 t
  let (table, l) := l.fill false n #[]
  (l.lookUp false 0 n counts.whole table).2

/-- The first half of the work of lanes that share a table: each fills its part of the table and
    mixes with it. The first lane moreover changes the key of the last step. -/
def mixOwn (n p : Nat) (counts : LoopCounts) (lanes : List Lane) (key : Bytes) :
    Array Chunk × List Lane × Bytes :=
  let (table, done, key) := lanes.zipIdx.foldl (fun (table, done, key) (l, i) =>
    let l := l.withSBox
    let key := if i = 0 then
        Hmac.tag Sha256.hash (undiagonal (last l.blocks)).toBytes key else key
    -- the last lane takes what rounding has left
    let states := if i + 1 < p then counts.chunk else n - i * counts.chunk
    let base := table.size
    let (table, l) := l.fill true states table
    let (table, l) := l.lookUp true base (floorPow2 states) counts.own table
    (table, l :: done, key)) (#[], [], key)
  (table, done.reverse, key)

/-- Lanes that share a table, and the key of the last step. -/
def mixShared (n p t : Nat) (lanes : List Lane) (key : Bytes) : List Lane × Bytes :=
  let counts := LoopCounts.ofSizes true n p t
  let (table, lanes, key) := mixOwn n p counts lanes key
  (lanes.map fun l => (l.lookUp false 0 n counts.whole table).2, key)

/-! ## Derivation -/

/-- The lanes of a byte string. -/
def lanes (r : Nat) : (p : Nat) → Bytes → List Lane
  | 0, _ => []
  | p + 1, b => Lane.ofBytes r b :: lanes r p (b.drop (128 * r))

/-- The steps of a derivation: the only one, or the first and the second of two. -/
inductive Step
  | main
  | prehash
  deriving DecidableEq, Repr

/-- One step of a derivation. -/
def deriveStep (step : Step) (password salt : Bytes) (q : Params) : Bytes :=
  let pbkdf2 := Pbkdf2.derive Sha256.hash
  let size := 128 * q.r * q.p
  match q.mode with
  | .classic =>
    let start := pbkdf2 password salt size
    let mixed := (lanes q.r q.p start).map (mixAlone q.n q.t)
    pbkdf2 password (mixed.flatMap Lane.toBytes) 32
  | mode =>
    let label := match step with
      | .main => Bytes.ascii "yescrypt"
      | .prehash => Bytes.ascii "yescrypt-prehash"
    let start := pbkdf2 (Hmac.tag Sha256.hash label password) salt size
    let (mixed, key) :=
      if mode.isReadWrite then mixShared q.n q.p q.t (lanes q.r q.p start) (start.take 32)
      else ((lanes q.r q.p start).map (mixAlone q.n q.t), start.take 32)
    let out := pbkdf2 key (mixed.flatMap Lane.toBytes) 32
    match step with
    | .prehash => out
    | .main => Sha256.digest (Hmac.tag Sha256.hash out (Bytes.ascii "Client Key"))

namespace Params

/-- Whether the key is derived in two steps. -/
def needsPrehash (q : Params) : Bool :=
  q.mode.isReadWrite && 0x100 ≤ q.n / q.p && 0x20000 ≤ q.n / q.p * q.r

/-- The parameters of the first of two steps. -/
def prehash (q : Params) : Params := { q with n := q.n / 64, t := 0 }

end Params

/-- The key of 32 bytes for admissible parameters. -/
def derivedKey (password salt : Bytes) (q : Params) : Bytes :=
  let password :=
    if q.needsPrehash then deriveStep .prehash password salt q.prehash else password
  deriveStep .main password salt q

/-- The key of 32 bytes, if the parameters are admissible. -/
def derive (password salt : Bytes) (q : Params) : Except Failure Bytes := do
  q.checked
  pure (derivedKey password salt q)

end Yescrypt

end PassHash
