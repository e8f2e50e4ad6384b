import Mathlib.Data.List.Basic
import PassHash.Proofs.Kdf.Yescrypt.CheckedLane

/-!
# The Partition of a Table among Lanes

Lanes that share a table each fill a part of it and read that part, and then all of them read the
whole table. With the sizes and the loop counts of a step computed in words of 64 bits, and with
checked places, no step of this fails unless the parameters are refused, and neither does the first
of two steps. The parts of the lanes follow each other through the whole table, and each has two
states or more.

## Contents

- `Share`, `Exact`: the part of a lane, and what the parts of all lanes are like
- `Word64.smix`: the work of lanes that share a table
- `Word64.derivation`: the derived key, with the shares of all lanes

## Main statements

- `Word64.exact_shareAt`: the parts of the lanes are the table
- `Word64.shareStep_eq_ok`, `Word64.wholeStep_eq_ok`: one lane does not leave its part or the table
- `Word64.smix_eq_ok`: neither does any of the lanes
- `Word64.derivation_eq_ok`: all of it for the steps of a derivation
-/

namespace PassHash

namespace Yescrypt

open Salsa20 BlockMix

/-- The part of a lane, and how many of its states the lane reads from. -/
structure Share where
  part : Part
  window : Nat
  deriving DecidableEq, Repr

/-- What the shares of `p` lanes in a table of `n` states are like. -/
structure Exact (n p : Nat) (shares : List Share) : Prop where
  count : shares.length = p
  /-- The parts follow each other from the first state to the last. -/
  cover : (shares.flatMap fun s => List.range' s.part.first s.part.states) = List.range n
  two : ∀ s ∈ shares, 2 ≤ s.part.states
  /-- A lane reads from a power of two of its states. -/
  window : ∀ s ∈ shares, ∃ k, s.window = 2 ^ k ∧ 2 ^ k ≤ s.part.states

namespace Word64

/-! ## Ahead of the work -/

/-- A lane ahead of its work, and the key of the last step, which the first lane changes. -/
def prepared (readWrite : Bool) (i : Nat) (l : Lane) (key : Bytes) : Lane × Bytes :=
  if readWrite then
    (l.withSBox, if i = 0 then
      Hmac.tag Sha256.hash (undiagonal (last l.withSBox.blocks)).toBytes key else key)
  else (l, key)

/-- The same with checked places: the S-box is made from the first 128 bytes of the lane, and the
    key from the last 64. -/
def prepare (readWrite : Bool) (lane i : Nat) (l : Lane) (key : Bytes) :
    Except Fault (Lane × Bytes) :=
  if readWrite then do
    range 0 128 lane
    let l ← withSBox l
    if i = 0 then do
      let _ ← sub lane 64
      return (l, Hmac.tag Sha256.hash (undiagonal (last l.blocks)).toBytes key)
    else return (l, key)
  else return (l, key)

theorem prepare_eq_ok {lane : Nat} (h : 128 ≤ lane) (readWrite : Bool) (i : Nat) (l : Lane)
    (key : Bytes) : prepare readWrite lane i l key = .ok (prepared readWrite i l key) := by
  have hrange : range 0 128 lane = .ok () := if_pos ⟨Nat.zero_le 128, h⟩
  have hsub := sub_eq_ok (show 64 ≤ lane by omega)
  cases readWrite with
  | true =>
    by_cases hi : i = 0
    · simp only [prepare, prepared, if_true, hrange, withSBox_eq_ok, if_pos hi, hsub, bind,
        Except.bind, pure, Except.pure]
    · simp only [prepare, prepared, if_true, hrange, withSBox_eq_ok, if_neg hi, bind, Except.bind,
        pure, Except.pure]
  | false => rfl

/-! ## Shares -/

/-- The states of a lane that are left when `first` states are taken: the last lane takes what
    rounding has left. -/
def statesOf (n p chunk i first : Nat) : Except Fault Nat := do
  if i < (← sub p 1) then return chunk else sub n first

/-- The states of lane `i`. -/
def statesAt (n p chunk i : Nat) : Nat := if i + 1 < p then chunk else n - i * chunk

/-- The share of lane `i`. -/
def shareAt (n p chunk i : Nat) : Share :=
  ⟨⟨i * chunk, statesAt n p chunk i⟩, floorPow2 (statesAt n p chunk i)⟩

/-- The states that are filled ahead of lane `i`. -/
def filledAt (n p chunk i : Nat) : Nat := if i < p then i * chunk else n

section Shares

variable {n p chunk i : Nat}

theorem mul_chunk_le (hle : p * chunk ≤ n) (hi : i < p) : i * chunk + chunk ≤ n := by
  rw [← Nat.succ_mul]
  exact Nat.le_trans (Nat.mul_le_mul_right chunk hi) hle

/-- The states of a lane follow those that are filled. -/
theorem filledAt_succ (hle : p * chunk ≤ n) (hi : i < p) :
    filledAt n p chunk (i + 1) = i * chunk + statesAt n p chunk i := by
  have hfit := mul_chunk_le hle hi
  rw [filledAt, statesAt]
  by_cases hlast : i + 1 < p
  · rw [if_pos hlast, if_pos hlast, Nat.succ_mul]
  · -- the last lane takes all that is left
    rw [if_neg hlast, if_neg hlast]
    omega

theorem filledAt_le (hle : p * chunk ≤ n) : filledAt n p chunk i ≤ n := by
  rw [filledAt]
  split
  · next hi =>
    have hfit := mul_chunk_le hle hi
    omega
  · exact Nat.le_refl n

/-- No lane has less than the others. -/
theorem chunk_le_statesAt (hle : p * chunk ≤ n) (hi : i < p) : chunk ≤ statesAt n p chunk i := by
  have hfit := mul_chunk_le hle hi
  rw [statesAt]
  split
  · exact Nat.le_refl chunk
  · omega

theorem statesOf_eq_ok (hle : p * chunk ≤ n) (hi : i < p) :
    statesOf n p chunk i (i * chunk) = .ok (statesAt n p chunk i) := by
  have hfit := mul_chunk_le hle hi
  have hsub := sub_eq_ok (show 1 ≤ p by omega)
  by_cases hlast : i + 1 < p
  · have hlt : i < p - 1 := by omega
    simp only [statesOf, hsub, statesAt, if_pos hlast, if_pos hlt, bind, Except.bind, pure,
      Except.pure]
  · have hlt : ¬i < p - 1 := by omega
    simp only [statesOf, hsub, statesAt, if_neg hlast, if_neg hlt,
      sub_eq_ok (show i * chunk ≤ n by omega), bind, Except.bind]

/-- The parts of the first lanes are what they fill. -/
theorem flatMap_shareAt (hp : 0 < p) (hle : p * chunk ≤ n) (hi : i ≤ p) :
    (((List.range i).map (shareAt n p chunk)).flatMap fun s =>
      List.range' s.part.first s.part.states) = List.range (filledAt n p chunk i) := by
  induction i with
  | zero => rw [filledAt, if_pos hp, Nat.zero_mul]; rfl
  | succ i ih =>
    -- the next part starts where those so far end
    have hfilled : filledAt n p chunk i = i * chunk := if_pos hi
    rw [List.range_succ, List.map_append, List.flatMap_append, ih (Nat.le_of_succ_le hi), hfilled,
      filledAt_succ hle hi, List.range_eq_range', List.range_eq_range', ← List.range'_append_1,
      Nat.zero_add]
    exact congrArg _ (List.append_nil _)

theorem exact_shareAt (hp : 0 < p) (hchunk : 2 ≤ chunk) (hle : p * chunk ≤ n) :
    Exact n p ((List.range p).map (shareAt n p chunk)) := by
  have hstates : ∀ s ∈ (List.range p).map (shareAt n p chunk),
      2 ≤ s.part.states ∧ s.window = floorPow2 s.part.states := by
    intro s hs
    obtain ⟨i, hi, rfl⟩ := List.mem_map.1 hs
    exact ⟨Nat.le_trans hchunk (chunk_le_statesAt hle (List.mem_range.1 hi)), rfl⟩
  refine ⟨by rw [List.length_map, List.length_range], ?_, fun s hs => (hstates s hs).1,
    fun s hs => ⟨s.part.states.log2, ?_, ?_⟩⟩
  · rw [flatMap_shareAt hp hle (Nat.le_refl p), filledAt, if_neg (Nat.lt_irrefl p)]
  · rw [(hstates s hs).2, floorPow2_eq]
  · rw [← floorPow2_eq]
    exact floorPow2_le (Nat.lt_of_lt_of_le (by decide) (hstates s hs).1)

end Shares

/-! ## All lanes -/

/-- How far the lanes of a step have come: the table, the lanes that are done in reverse order, the
    key of the last step, the state that the next lane starts with, and the shares so far. -/
structure Progress where
  table : Array Chunk
  done : List Lane
  key : Bytes
  next : Nat
  shares : List Share

/-- A lane fills its part and reads it. -/
def ownWork (size : Nat) (readWrite : Bool) (a : Part) (window own : Nat) (table : Array Chunk)
    (l : Lane) : Except Fault (Array Chunk × Lane) := do
  let (table, l) ← fill size readWrite a table l
  lookUp size readWrite a window own table l

/-- The first half of the work of a lane. -/
def shareStep (readWrite : Bool) (z : Sizes) (bytes n p : Nat) (counts : LoopCounts) (g : Progress)
    (li : Lane × Nat) : Except Fault Progress := do
  let states ← statesOf n p counts.chunk li.2 g.next
  units z.lane bytes li.2 1
  units z.state z.table g.next states
  let part : Part := ⟨g.next, states⟩
  let window ← topBit states
  let (l, key) ← prepare readWrite z.lane li.2 li.1 g.key
  let (table, l) ← ownWork z.state readWrite part window counts.own g.table l
  return ⟨table, l :: g.done, key, ← add g.next counts.chunk, g.shares ++ [⟨part, window⟩]⟩

/-- The second half of the work of a lane, in the whole table. -/
def wholeStep (z : Sizes) (bytes n : Nat) (counts : LoopCounts) (g : Array Chunk × List Lane)
    (li : Lane × Nat) : Except Fault (Array Chunk × List Lane) := do
  units z.lane bytes li.2 1
  let (table, l) ← lookUp z.state false ⟨0, n⟩ n counts.whole g.1 li.1
  return (table, l :: g.2)

/-- Lanes that share a table: the table and the lanes after their work, the key of the last step,
    and their shares. -/
structure Mixed where
  table : Array Chunk
  lanes : List Lane
  key : Bytes
  shares : List Share

/-- The work of the lanes that share a table of `n` states. -/
def smix (readWrite : Bool) (z : Sizes) (n p t : Nat) (table : Array Chunk) (lanes : List Lane)
    (key : Bytes) : Except Fault Mixed := do
  let bytes ← mul z.lane p
  let counts ← counts readWrite n p t
  let g ← lanes.zipIdx.foldlM (shareStep readWrite z bytes n p counts) ⟨table, [], key, 0, []⟩
  let (table, done) ← g.done.reverse.zipIdx.foldlM (wholeStep z bytes n counts) (g.table, [])
  return ⟨table, done.reverse, g.key, g.shares⟩

/-- A lane fills its part and reads it, with the states filled so far. -/
def ownNext (readWrite : Bool) (states own : Nat) (filled : Array Chunk) (l : Lane) :
    Array Chunk × Lane :=
  let g := l.fill readWrite states filled
  g.2.lookUp readWrite filled.size (floorPow2 states) own g.1

/-- The first half of the work of a lane, with the states filled so far. -/
def shareNext (readWrite : Bool) (n p : Nat) (counts : LoopCounts)
    (g : Array Chunk × List Lane × Bytes) (li : Lane × Nat) : Array Chunk × List Lane × Bytes :=
  let start := prepared readWrite li.2 li.1 g.2.2
  let out := ownNext readWrite (statesAt n p counts.chunk li.2) counts.own g.1 start.1
  (out.1, out.2 :: g.2.1, start.2)

/-- Lanes that share a table, and the key of the last step. -/
def mixed (readWrite : Bool) (n p t : Nat) (lanes : List Lane) (key : Bytes) :
    List Lane × Bytes :=
  let counts := LoopCounts.ofSizes readWrite n p t
  let g := lanes.zipIdx.foldl (shareNext readWrite n p counts) (#[], [], key)
  (g.2.1.reverse.map fun l => (l.lookUp false 0 n counts.whole g.1).2, g.2.2)

theorem mixOwn_eq_foldl (n p : Nat) (counts : LoopCounts) (lanes : List Lane) (key : Bytes) :
    mixOwn n p counts lanes key =
      ((lanes.zipIdx.foldl (shareNext true n p counts) (#[], [], key)).1,
        (lanes.zipIdx.foldl (shareNext true n p counts) (#[], [], key)).2.1.reverse,
        (lanes.zipIdx.foldl (shareNext true n p counts) (#[], [], key)).2.2) := by
  rw [mixOwn, List.foldl_ext _ (shareNext true n p counts)]
  rintro ⟨table, done, key⟩ ⟨l, i⟩ -
  simp only [shareNext, ownNext, prepared, if_true, statesAt]

theorem mixShared_eq_mixed (n p t : Nat) (lanes : List Lane) (key : Bytes) :
    mixShared n p t lanes key = mixed true n p t lanes key := by
  rw [mixShared, mixOwn_eq_foldl, mixed]

/-- A lane without an S-box has the table to itself and does not write what it reads. -/
theorem shareNext_alone (n t : Nat) (l : Lane) (key : Bytes) :
    shareNext false n 1 (LoopCounts.ofSizes false n 1 t) (#[], [], key) (l, 0) =
      ((l.fill false n #[]).1, [(l.fill false n #[]).2], key) := by
  have hstates : statesAt n 1 (LoopCounts.ofSizes false n 1 t).chunk 0 = n := by
    rw [statesAt, if_neg (by decide), Nat.zero_mul, Nat.sub_zero]
  rw [shareNext, hstates]
  rfl

theorem mixed_singleton (n t : Nat) (l : Lane) (key : Bytes) :
    mixed false n 1 t [l] key = ([mixAlone n t l], key) := by
  rw [mixed, mixAlone, List.zipIdx_singleton, List.foldl_cons, List.foldl_nil, shareNext_alone]
  rfl

variable {readWrite : Bool} {z : Sizes} {n p t : Nat}

/-- How a run with checked places relates to one without them after `i` lanes. -/
structure Keeps (n p : Nat) (counts : LoopCounts) (i : Nat) (g : Progress)
    (g' : Array Chunk × List Lane × Bytes) : Prop where
  agrees : Agrees n g.table g'.1
  filled : g'.1.size = filledAt n p counts.chunk i
  done : g.done = g'.2.1
  count : g.done.length = i
  key : g.key = g'.2.2
  next : g.next = i * counts.chunk
  shares : g.shares = (List.range i).map (shareAt n p counts.chunk)

theorem floorPow2_floorPow2 (x : Nat) : floorPow2 x = floorPow2 (floorPow2 x) :=
  eq_floorPow2_iff.2 ⟨x.log2, floorPow2_eq x⟩

/-- The table of the memory has room for a part of the table. -/
theorem inside_of_le (hz : z.Hold n p) {a : Part} (h : a.first + a.states ≤ n) :
    Inside z.state n a where
  positive := hz.state
  words := by
    rw [Nat.mul_comm, ← hz.table]
    exact hz.words
  states := h

theorem units_lane_eq_ok (hz : z.Hold n p) {i : Nat} (hi : i < p) :
    units z.lane (z.lane * p) i 1 = .ok () := by
  refine units_eq_ok (Nat.lt_of_lt_of_le (by decide) hz.lane) hz.lanes ?_
  rw [Nat.mul_comm z.lane]
  exact Nat.mul_le_mul_right z.lane hi

theorem units_state_eq_ok (hz : z.Hold n p) {first states : Nat} (h : first + states ≤ n) :
    units z.state z.table first states = .ok () := by
  refine units_eq_ok hz.state hz.words ?_
  rw [hz.table, Nat.mul_comm z.state]
  exact Nat.mul_le_mul_right z.state h

/-- A lane does not leave its part, which follows the states filled so far. -/
theorem ownWork_eq_ok {size : Nat} {a : Part} {table filled : Array Chunk} (h : Inside size n a)
    (hagrees : Agrees n table filled) (hfilled : filled.size = a.first) (hpos : 0 < a.states)
    (readWrite : Bool) (own : Nat) (l : Lane) :
    ∃ table', ownWork size readWrite a (floorPow2 a.states) own table l =
        .ok (table', (ownNext readWrite a.states own filled l).2) ∧
      Agrees n table' (ownNext readWrite a.states own filled l).1 ∧
      (ownNext readWrite a.states own filled l).1.size = a.first + a.states := by
  obtain ⟨table', hfill, hagrees', hsize⟩ := fill_eq_ok h hagrees hfilled readWrite l
  obtain ⟨table'', hread, hagrees'', hsize'⟩ :=
    lookUp_eq_ok h hagrees' (Nat.le_of_eq hsize.symm) (floorPow2_floorPow2 a.states)
      (floorPow2_le hpos) readWrite own (l.fill readWrite a.states filled).2
  rw [ownNext, hfilled]
  refine ⟨table'', ?_, hagrees'', hsize'.trans hsize⟩
  simp only [ownWork, hfill, hread, bind, Except.bind]

theorem shareStep_eq_ok (hz : z.Hold n p) {counts : LoopCounts} (hchunk : 2 ≤ counts.chunk)
    (hle : p * counts.chunk ≤ n) (hn : n ≤ 2 ^ 30) {i : Nat} (hi : i < p) {g : Progress}
    {g' : Array Chunk × List Lane × Bytes} (hg : Keeps n p counts i g g') (l : Lane) :
    ∃ next, shareStep readWrite z (z.lane * p) n p counts g (l, i) = .ok next ∧
      Keeps n p counts (i + 1) next (shareNext readWrite n p counts g' (l, i)) := by
  have hfilled : g'.1.size = i * counts.chunk := by
    rw [hg.filled, filledAt, if_pos hi]
  have hsucc := filledAt_succ hle hi
  have hend : i * counts.chunk + statesAt n p counts.chunk i ≤ n := hsucc ▸ filledAt_le hle
  have hpos : 0 < statesAt n p counts.chunk i :=
    Nat.lt_of_lt_of_le (by decide) (Nat.le_trans hchunk (chunk_le_statesAt hle hi))
  have hnext : i * counts.chunk + counts.chunk < 2 ^ 64 :=
    Nat.lt_of_le_of_lt (Nat.le_trans (mul_chunk_le hle hi) hn) (by decide)
  -- the part starts where the states filled so far end
  obtain ⟨table, hwork, hagrees, hsize⟩ := ownWork_eq_ok
    (a := ⟨i * counts.chunk, statesAt n p counts.chunk i⟩) (inside_of_le hz hend) hg.agrees hfilled
    hpos readWrite counts.own (prepared readWrite i l g'.2.2).1
  refine ⟨⟨table, (shareNext readWrite n p counts g' (l, i)).2.1,
    (prepared readWrite i l g'.2.2).2, (i + 1) * counts.chunk,
    (List.range (i + 1)).map (shareAt n p counts.chunk)⟩, ?_, hagrees, hsize.trans hsucc.symm, rfl,
    ?_, rfl, rfl, rfl⟩
  swap
  · rw [shareNext, List.length_cons, ← hg.done, hg.count]
  simp only [shareStep, hg.next, hg.done, hg.key, hg.shares, statesOf_eq_ok hle hi,
    units_lane_eq_ok hz hi, units_state_eq_ok hz hend, topBit_eq_ok hpos,
    prepare_eq_ok hz.lane, hwork, add_eq_ok hnext, bind, Except.bind, pure, Except.pure, shareNext,
    Nat.succ_mul, List.range_succ, List.map_append, List.map_cons, List.map_nil, shareAt]

theorem wholeStep_eq_ok (hz : z.Hold n p) (hpow : n = floorPow2 n) {counts : LoopCounts} {i : Nat}
    (hi : i < p) {table filled : Array Chunk} (hagrees : Agrees n table filled)
    (hfull : filled.size = n) (done : List Lane) (l : Lane) :
    ∃ table', wholeStep z (z.lane * p) n counts (table, done) (l, i) =
        .ok (table', (l.lookUp false 0 n counts.whole filled).2 :: done) ∧
      Agrees n table' filled := by
  have hinside := inside_of_le hz (a := ⟨0, n⟩) (Nat.le_of_eq (Nat.zero_add n))
  obtain ⟨table', hread, hagrees', -⟩ := lookUp_eq_ok hinside hagrees
    (Nat.le_of_eq ((Nat.zero_add n).trans hfull.symm)) hpow (Nat.le_refl n) false counts.whole l
  rw [lookUp_false_fst] at hagrees'
  refine ⟨table', ?_, hagrees'⟩
  simp only [wholeStep, units_lane_eq_ok hz hi, hread, bind, Except.bind, pure, Except.pure]

theorem foldl_zipIdx_cons {α β : Type} (f : α → β) (as : List α) (k : Nat) (done : List β) :
    (as.zipIdx k).foldl (fun done ai => f ai.1 :: done) done = (as.map f).reverse ++ done := by
  induction as generalizing k done with
  | nil => rfl
  | cons a as ih =>
    rw [List.zipIdx_cons, List.foldl_cons, ih, List.map_cons, List.reverse_cons, List.append_assoc]
    rfl

/-- All lanes read the whole table, which stays as it is. -/
theorem wholeSteps_eq_ok (hz : z.Hold n p) (hpow : n = floorPow2 n) (counts : LoopCounts)
    {table filled : Array Chunk} (hagrees : Agrees n table filled) (hfull : filled.size = n)
    {lanes : List Lane} (hlanes : lanes.length = p) :
    ∃ table', lanes.zipIdx.foldlM (wholeStep z (z.lane * p) n counts) (table, []) =
        .ok (table', (lanes.map fun l => (l.lookUp false 0 n counts.whole filled).2).reverse) ∧
      Agrees n table' filled := by
  obtain ⟨⟨table', done⟩, hrun, hagrees', hdone⟩ := foldlM_simulates
    (f := wholeStep z (z.lane * p) n counts)
    (g := fun done li => (li.1.lookUp false 0 n counts.whole filled).2 :: done)
    (a := (table, [])) (b := [])
    (fun _ g g' => Agrees n g.1 filled ∧ g.2 = g') lanes.zipIdx ⟨hagrees, rfl⟩ (by
      rintro i hi ⟨table, done⟩ done' ⟨hagrees, hdone⟩
      obtain rfl : done = done' := hdone
      rw [List.length_zipIdx, hlanes] at hi
      rw [List.getElem_zipIdx, Nat.zero_add]
      obtain ⟨table', hstep, hagrees'⟩ := wholeStep_eq_ok hz hpow hi hagrees hfull done lanes[i]
      exact ⟨_, hstep, hagrees', rfl⟩)
  refine ⟨table', hrun.trans ?_, hagrees'⟩
  obtain rfl : done = _ := hdone
  rw [foldl_zipIdx_cons fun l : Lane => (l.lookUp false 0 n counts.whole filled).2,
    List.append_nil]

/-- A lane has two states or more when the lanes share as many, and the lanes do not have more than
    there are. -/
theorem chunk_ofSizes (readWrite : Bool) (t : Nat) (hshared : 1 < n / p) :
    2 ≤ (LoopCounts.ofSizes readWrite n p t).chunk ∧
      p * (LoopCounts.ofSizes readWrite n p t).chunk ≤ n := by
  have hchunk : (LoopCounts.ofSizes readWrite n p t).chunk = n / p / 2 * 2 := rfl
  rw [hchunk]
  have hfit : p * (n / p / 2 * 2) ≤ p * (n / p) := Nat.mul_le_mul_left p (Nat.div_mul_le_self _ 2)
  exact ⟨by omega, Nat.le_trans hfit (Nat.mul_div_le n p)⟩

/-- The lanes that share a table do what they do without checks, and their parts are the table. -/
theorem smix_eq_ok (readWrite : Bool) (hz : z.Hold n p) (hpow : n = floorPow2 n)
    (hn : n ≤ 2 ^ 30) (hp : 0 < p) (hshared : 1 < n / p) (ht : t < 2 ^ 32)
    {table : Array Chunk} (htable : table.size = n)
    (lanes : List Lane) (hlanes : lanes.length = p) (key : Bytes) :
    ∃ out, smix readWrite z n p t table lanes key = .ok out ∧
      (out.lanes, out.key) = mixed readWrite n p t lanes key ∧ out.table.size = n ∧
      Exact n p out.shares := by
  obtain ⟨hchunk, hle⟩ := chunk_ofSizes readWrite t hshared
  have hcounts := counts_eq_ok readWrite hn hp ht
  have hbytes := mul_eq_ok hz.lanes
  generalize hcountsEq : LoopCounts.ofSizes readWrite n p t = counts at hchunk hle hcounts
  -- the first half: every lane in its own part
  have hstart : Keeps n p counts 0 ⟨table, [], key, 0, []⟩ (#[], [], key) :=
    ⟨htable ▸ Agrees.empty table, by rw [filledAt, if_pos hp, Nat.zero_mul]; rfl, rfl, rfl, rfl,
      (Nat.zero_mul _).symm, rfl⟩
  obtain ⟨g, hown, hkeeps⟩ := foldlM_simulates
    (f := shareStep readWrite z (z.lane * p) n p counts) (g := shareNext readWrite n p counts)
    (Keeps n p counts) lanes.zipIdx hstart (by
      rintro i hi g g' hg
      rw [List.length_zipIdx, hlanes] at hi
      rw [List.getElem_zipIdx, Nat.zero_add]
      exact shareStep_eq_ok hz hchunk hle hn hi hg lanes[i])
  rw [List.length_zipIdx, hlanes] at hkeeps
  generalize hnext : lanes.zipIdx.foldl (shareNext readWrite n p counts) (#[], [], key) = g'
    at hkeeps
  -- the second half: every lane in the whole table
  have hfull : g'.1.size = n := by
    rw [hkeeps.filled, filledAt, if_neg (Nat.lt_irrefl p)]
  have hdone : g.done.reverse.length = p := by rw [List.length_reverse, hkeeps.count]
  obtain ⟨table', hwhole, hagrees⟩ := wholeSteps_eq_ok hz hpow counts hkeeps.agrees hfull hdone
  refine ⟨⟨table', g.done.reverse.map fun l => (l.lookUp false 0 n counts.whole g'.1).2, g.key,
    g.shares⟩, ?_, ?_, hagrees.size, ?_⟩
  · simp only [smix, hbytes, hcounts, hown, hwhole, List.reverse_reverse, bind, Except.bind, pure,
      Except.pure]
  · simp only [mixed, hcountsEq, hnext, hkeeps.done, hkeeps.key]
  · simp only [hkeeps.shares]
    exact exact_shareAt hp hchunk hle

/-! ## Derivations -/

/-- How many lanes share a table. -/
def sharers (q : Params) : Nat := if q.mode.isReadWrite then q.p else 1

/-- How many times the table is filled. -/
def rounds (q : Params) : Nat := if q.mode.isReadWrite then 1 else q.p

/-- A lane that has the table to itself, after the lanes before it. -/
def aloneStep (z : Sizes) (q : Params) (key : Bytes)
    (g : Array Chunk × List Lane × List (List Share)) (l : Lane) :
    Except Fault (Array Chunk × List Lane × List (List Share)) := do
  let out ← smix false z q.n 1 q.t g.1 [l] key
  return (out.table, g.2.1 ++ out.lanes, g.2.2 ++ [out.shares])

/-- The lanes after their work, the key of the last step, and the shares for each time that the
    table was filled. -/
def mixing (z : Sizes) (q : Params) (lanes : List Lane) (key : Bytes) :
    Except Fault (List Lane × Bytes × List (List Share)) :=
  let blank := Array.replicate q.n []
  if q.mode.isReadWrite then do
    let out ← smix true z q.n q.p q.t blank lanes key
    return (out.lanes, out.key, [out.shares])
  else do
    let g ← lanes.foldlM (aloneStep z q key) (blank, [], [])
    return (g.2.1, key, g.2.2)

/-- The lanes after their work without checks, and the key of the last step. -/
def mixedLanes (q : Params) (lanes : List Lane) (key : Bytes) : List Lane × Bytes :=
  if q.mode.isReadWrite then mixShared q.n q.p q.t lanes key
  else (lanes.map (mixAlone q.n q.t), key)

/-- What the lanes of a step are made from. -/
def opening (step : Step) (password salt : Bytes) (q : Params) : Bytes :=
  let label := match step with
    | .main => Bytes.ascii "yescrypt"
    | .prehash => Bytes.ascii "yescrypt-prehash"
  let password := match q.mode with
    | .classic => password
    | _ => Hmac.tag Sha256.hash label password
  Pbkdf2.derive Sha256.hash password salt (128 * q.r * q.p)

/-- The key of a step from the lanes after their work. -/
def closing (step : Step) (password : Bytes) (q : Params) (lanes : List Lane) (key : Bytes) :
    Bytes :=
  let key := match q.mode with
    | .classic => password
    | _ => key
  let out := Pbkdf2.derive Sha256.hash key (lanes.flatMap Lane.toBytes) 32
  match q.mode, step with
  | .classic, _ => out
  | _, .prehash => out
  | _, .main => Sha256.digest (Hmac.tag Sha256.hash out (Bytes.ascii "Client Key"))

/-- One step of a derivation, and the shares for each time that its table was filled. -/
def step (step : Step) (password salt : Bytes) (q : Params) :
    Except Fault (Bytes × List (List Share)) := do
  let z ← sizes q
  let start := opening step password salt q
  let (lanes, key, shares) ← mixing z q (lanes q.r q.p start) (start.take 32)
  return (closing step password q lanes key, shares)

/-- The derived key, and the shares of every step with its parameters. -/
def derivation (password salt : Bytes) (q : Params) :
    Except Fault (Bytes × List (Params × List (List Share))) := do
  if q.needsPrehash then
    let (password, first) ← step .prehash password salt q.prehash
    let (key, second) ← step .main password salt q
    return (key, [(q.prehash, first), (q, second)])
  else
    let (key, only) ← step .main password salt q
    return (key, [(q, only)])

theorem deriveStep_eq_closing (step : Step) (password salt : Bytes) (q : Params) :
    deriveStep step password salt q =
      closing step password q
        (mixedLanes q (lanes q.r q.p (opening step password salt q))
          ((opening step password salt q).take 32)).1
        (mixedLanes q (lanes q.r q.p (opening step password salt q))
          ((opening step password salt q).take 32)).2 := by
  cases hmode : q.mode with
  | classic => simp only [deriveStep, closing, opening, mixedLanes, hmode, Mode.isReadWrite,
      Bool.false_eq_true, if_false]
  | writeOnce =>
    cases step <;> simp only [deriveStep, closing, opening, mixedLanes, hmode, Mode.isReadWrite,
      Bool.false_eq_true, if_false]
  | readWrite flavor =>
    cases step <;> simp only [deriveStep, closing, opening, mixedLanes, hmode, Mode.isReadWrite,
      if_true]

theorem length_lanes (r p : Nat) (b : Bytes) : (lanes r p b).length = p := by
  induction p generalizing b with
  | zero => rfl
  | succ p ih => rw [lanes, List.length_cons, ih]

variable {q : Params}

theorem Sizes.Hold.one (h : z.Hold n p) (hp : 0 < p) : z.Hold n 1 where
  lane := h.lane
  lanes := Nat.lt_of_le_of_lt (Nat.mul_le_mul_left z.lane hp) h.lanes
  state := h.state
  table := h.table
  words := h.words

theorem foldl_append_singleton {α β : Type} (f : α → β) (as : List α) (done : List β) :
    as.foldl (fun done a => done ++ [f a]) done = done ++ as.map f := by
  induction as generalizing done with
  | nil => exact (List.append_nil done).symm
  | cons a as ih =>
    rw [List.foldl_cons, ih, List.map_cons, List.append_assoc, List.singleton_append]

/-- Lanes that each have the table to themselves do what they do without checks. -/
theorem aloneSteps_eq_ok (hz : z.Hold q.n 1) (hq : Admissible q) (ht : q.t < 2 ^ 32)
    (lanes : List Lane) (key : Bytes) {table : Array Chunk} (htable : table.size = q.n) :
    ∃ table' log, lanes.foldlM (aloneStep z q key) (table, [], []) =
        .ok (table', lanes.map (mixAlone q.n q.t), log) ∧
      log.length = lanes.length ∧ ∀ shares ∈ log, Exact q.n 1 shares := by
  have htwo : 1 < q.n / 1 := by
    rw [Nat.div_one]
    exact hq.two
  obtain ⟨⟨table', done, log⟩, hrun, -, hdone, hlen, hlog⟩ := foldlM_simulates
    (f := aloneStep z q key) (g := fun done l => done ++ [mixAlone q.n q.t l])
    (a := (table, [], [])) (b := [])
    (fun i g g' => g.1.size = q.n ∧ g.2.1 = g' ∧ g.2.2.length = i ∧
      ∀ shares ∈ g.2.2, Exact q.n 1 shares) lanes
    ⟨htable, rfl, rfl, fun _ h => absurd h List.not_mem_nil⟩ (by
      rintro i hi ⟨table, done, log⟩ done' ⟨htable, hdone, hlen, hlog⟩
      -- the lane before has left its states in the table, which does not matter
      obtain ⟨out, hmix, hlanes, htable', hexact⟩ := smix_eq_ok false hz hq.power hq.bound
        (by decide) htwo ht htable [lanes[i]] rfl key
      rw [mixed_singleton, Prod.mk.injEq] at hlanes
      refine ⟨(out.table, done ++ out.lanes, log ++ [out.shares]), ?_, htable', ?_, ?_, ?_⟩
      · simp only [aloneStep, hmix, bind, Except.bind, pure, Except.pure]
      · simp only [hlanes.1, ← hdone]
      · simp only [List.length_append, List.length_singleton, ← hlen]
      · intro shares hmem
        rcases List.mem_append.1 hmem with hmem | hmem
        · exact hlog shares hmem
        · rw [List.mem_singleton.1 hmem]
          exact hexact)
  simp only at hdone hlen hlog
  refine ⟨table', log, hrun.trans ?_, hlen, hlog⟩
  rw [hdone, foldl_append_singleton, List.nil_append]

theorem mixing_eq_ok (hz : z.Hold q.n q.p) (hq : Admissible q) (ht : q.t < 2 ^ 32)
    {lanes : List Lane} (hlanes : lanes.length = q.p) (key : Bytes) :
    ∃ log, mixing z q lanes key =
        .ok ((mixedLanes q lanes key).1, (mixedLanes q lanes key).2, log) ∧
      log.length = rounds q ∧ ∀ shares ∈ log, Exact q.n (sharers q) shares := by
  have hblank : (Array.replicate q.n ([] : Chunk)).size = q.n := Array.size_replicate
  by_cases hmode : q.mode.isReadWrite = true
  · obtain ⟨out, hmix, hout, -, hexact⟩ := smix_eq_ok true hz hq.power hq.bound hq.lanes
      (hq.shared hmode) ht hblank lanes hlanes key
    rw [← mixShared_eq_mixed] at hout
    refine ⟨[out.shares], ?_, ?_, ?_⟩
    · simp only [mixing, mixedLanes, if_pos hmode, hmix, ← hout, bind, Except.bind, pure,
        Except.pure]
    · rw [rounds, if_pos hmode, List.length_singleton]
    · intro shares hmem
      rw [List.mem_singleton.1 hmem, sharers, if_pos hmode]
      exact hexact
  · obtain ⟨table, log, hrun, hlen, hexact⟩ :=
      aloneSteps_eq_ok (hz.one hq.lanes) hq ht lanes key hblank
    refine ⟨log, ?_, ?_, ?_⟩
    · simp only [mixing, mixedLanes, if_neg hmode, hrun, bind, Except.bind, pure, Except.pure]
    · rw [rounds, if_neg hmode, hlen, hlanes]
    · rw [sharers, if_neg hmode]
      exact hexact

/-- A step that is not refused does what it does without checks, and the parts of the lanes are the
    table whenever it is filled. -/
theorem step_eq_ok (h : q.stepChecked = .ok ()) (ht : q.t < 2 ^ 32) (s : Step)
    (password salt : Bytes) :
    ∃ log, step s password salt q = .ok (deriveStep s password salt q, log) ∧
      log.length = rounds q ∧ ∀ shares ∈ log, Exact q.n (sharers q) shares := by
  obtain ⟨z, hsizes, hz⟩ := sizes_eq_ok h
  obtain ⟨log, hmix, hlog⟩ := mixing_eq_ok hz (admissible_of_stepChecked h) ht
    (length_lanes q.r q.p (opening s password salt q)) ((opening s password salt q).take 32)
  refine ⟨log, ?_, hlog⟩
  rw [deriveStep_eq_closing]
  simp only [step, hsizes, hmix, bind, Except.bind, pure, Except.pure]

/-- The first of two steps is not refused if the second is not. -/
theorem stepChecked_prehash_eq_ok (h : q.stepChecked = .ok ()) (hpre : q.needsPrehash = true) :
    q.prehash.stepChecked = .ok () := by
  obtain ⟨hsizes, hfits⟩ := stepChecked_eq_ok_iff.1 h
  have hpower := eq_floorPow2_iff.1 (admissible_of_stepChecked h).power
  exact stepChecked_eq_ok_iff.2 ⟨(sizesOk_prehash hpower hpre).trans hsizes, fits_prehash hfits⟩

/-- The steps of a derivation, each with its parameters. -/
def steps (q : Params) : List Params := if q.needsPrehash then [q.prehash, q] else [q]

/-- A derivation with admissible parameters does in words of 64 bits, and with every place checked,
    what it does without: no number leaves the word, no place the part of the table that it is meant
    for, and nothing is read back before it was filled. No step of it is refused, and whenever a
    step fills its table, the parts of the lanes follow each other through all of it. -/
theorem derivation_eq_ok (h : q.stepChecked = .ok ()) (ht : q.t < 2 ^ 32)
    (password salt : Bytes) :
    ∃ log, derivation password salt q = .ok (derivedKey password salt q, log) ∧
      log.map Prod.fst = steps q ∧
      ∀ e ∈ log, e.1.stepChecked = .ok () ∧ e.2.length = rounds e.1 ∧
        ∀ shares ∈ e.2, Exact e.1.n (sharers e.1) shares := by
  by_cases hpre : q.needsPrehash = true
  · have hfirst := stepChecked_prehash_eq_ok h hpre
    -- the time of the first step is zero, whatever that of the second is
    obtain ⟨first, hrun, hlen, hexact⟩ :=
      step_eq_ok hfirst (Nat.two_pow_pos 32) .prehash password salt
    obtain ⟨second, hrun', hlen', hexact'⟩ :=
      step_eq_ok h ht .main (deriveStep .prehash password salt q.prehash) salt
    refine ⟨[(q.prehash, first), (q, second)], ?_, (if_pos hpre).symm, ?_⟩
    · simp only [derivation, derivedKey, if_pos hpre, hrun, hrun', bind, Except.bind, pure,
        Except.pure]
    · intro e hmem
      rcases List.mem_cons.1 hmem with rfl | hmem
      · exact ⟨hfirst, hlen, hexact⟩
      · rw [List.mem_singleton.1 hmem]
        exact ⟨h, hlen', hexact'⟩
  · obtain ⟨only, hrun, hlen, hexact⟩ := step_eq_ok h ht .main password salt
    refine ⟨[(q, only)], ?_, (if_neg hpre).symm, ?_⟩
    · simp only [derivation, derivedKey, if_neg hpre, hrun, bind, Except.bind, pure, Except.pure]
    · intro e hmem
      rw [List.mem_singleton.1 hmem]
      exact ⟨h, hlen, hexact⟩

/-- A table of 2^20 states that three lanes share, derived in two steps. -/
theorem derivation_eq_ok_three :
    let q : Params := ⟨.readWrite 0x2d, 1048576, 1, 3, 2, 0, 0⟩
    q.stepChecked = .ok () ∧ q.t < 2 ^ 32 ∧ q.needsPrehash = true ∧
      ∃ log, derivation [] [] q = .ok (derivedKey [] [] q, log) ∧ log.map Prod.fst = steps q ∧
        ∀ e ∈ log, e.1.stepChecked = .ok () ∧ e.2.length = rounds e.1 ∧
          ∀ shares ∈ e.2, Exact e.1.n (sharers e.1) shares := by
  have hchecked : Params.stepChecked ⟨.readWrite 0x2d, 1048576, 1, 3, 2, 0, 0⟩ = .ok () :=
    stepChecked_eq_ok_iff.2 ⟨by decide, by decide⟩
  exact ⟨hchecked, by decide, by decide, derivation_eq_ok hchecked (by decide) [] []⟩

end Word64

end Yescrypt

end PassHash
