import Mathlib.Algebra.GroupWithZero.Nat
import Mathlib.Data.List.Basic
import PassHash.Kdf.Yescrypt.SBox

/-!
# Access to the Table of an S-box

The transformation of a block selects entries of two regions with words of the block, and writes
entries into the third region. It is written out here over a memory of words that can only be read
and written a word at a time, and that keeps a record of every access. The record shows that
whatever the words are, no access leaves the region it is meant for: a word selects among the first
256 pairs of entries, a region has no more, and the cursor advances by 32 entries in every
transformation and comes around at the end of a region.

## Contents

- `SBox.Access`, `SBox.Memory`: a memory that records its accesses
- `SBox.Traced.transform`: the transformation of a block over such a memory
- `SBox.Pass`, `SBox.Trace`: the record of a run of transformations
- `SBox.Steady`: the invariant of the roles and of the cursor

## Main statements

- `SBox.transform_traced`: a transformation over the memory is that of the table, and what it
  accesses
- `SBox.Steady.transform`: the invariant is kept
- `SBox.calls_confined`: no access leaves its region, in any run of transformations of blocks and of
  states
-/

namespace PassHash

namespace Yescrypt

open Salsa20 BlockMix

namespace SBox

/-! ## Memory -/

/-- An access to a word: the start of the region that it is counted from, and its place in the
    region. -/
inductive Access
  | read (region place : Nat)
  | write (region place : Nat)
  deriving DecidableEq, Repr

/-- The word that is accessed. -/
def Access.word : Access → Nat
  | read region place => region + place
  | write region place => region + place

/-- The region and the place of a written word. -/
def Access.written? : Access → Option (Nat × Nat)
  | read _ _ => none
  | write region place => some (region, place)

/-- Words, and what was accessed of them, the last access at the end. -/
structure Memory where
  words : Array UInt32
  accesses : List Access

namespace Memory

/-- The word at a place of a region. -/
def read (region place : Nat) : StateM Memory UInt32 := fun m =>
  (m.words.getD (region + place) 0, ⟨m.words, m.accesses ++ [.read region place]⟩)

/-- Writes a word at a place of a region. -/
def write (region place : Nat) (word : UInt32) : StateM Memory Unit := fun m =>
  ((), ⟨m.words.setIfInBounds (region + place) word, m.accesses ++ [.write region place]⟩)

end Memory

/-- The starts of the regions, and the cursor. -/
structure Roles where
  first : Nat
  second : Nat
  third : Nat
  cursor : Nat
  deriving DecidableEq, Repr

/-- The roles of the regions of a table. -/
def roles (s : SBox) : Roles := ⟨s.first, s.second, s.third, s.cursor⟩

/-! ## The transformation over a memory -/

namespace Traced

/-- The place of the entry that a word selects in a region. -/
def place (word : UInt32) : Nat := (word &&& 0xff0).toNat / 4

/-- The entry at a place, as one number. -/
def entry (region place : Nat) : StateM Memory UInt64 := do
  let low ← Memory.read region place
  let high ← Memory.read region (place + 1)
  return low.toUInt64 ||| (high.toUInt64 <<< 32)

/-- Two words of a block, combined with an entry of each of the regions that are read. -/
def pair (g : Roles) (lane : Fin 4) (k : Fin 2) (i j : Nat) (x : Block) : StateM Memory Block := do
  let base := 4 * lane.val + 2 * k.val
  have h : base + 1 < 16 := by omega
  let product := x[base + 1].toUInt64 * x[base].toUInt64
  let u ← entry g.first (i + 2 * k.val)
  let v ← entry g.second (j + 2 * k.val)
  let out := (product + u) ^^^ v
  return (x.set base out.toUInt32).set (base + 1) (out >>> 32).toUInt32

theorem lane_lt (lane : Fin 4) : 4 * lane.val < 16 := by omega

theorem lane_succ_lt (lane : Fin 4) : 4 * lane.val + 1 < 16 := by omega

/-- Four words of a block, combined with the entries that the first two of them select. -/
def gather (g : Roles) (lane : Fin 4) (x : Block) : StateM Memory Block := do
  have hlow := lane_lt lane
  have hhigh := lane_succ_lt lane
  let i := place x[4 * lane.val]
  let j := place x[4 * lane.val + 1]
  -- the second pair is combined with what the words selected ahead of the first
  let x ← pair g lane ⟨0, Nat.zero_lt_two⟩ i j x
  pair g lane ⟨1, Nat.one_lt_two⟩ i j x

/-- Two words of a block, written at the cursor, which moves on by an entry. -/
def recordPair (g : Roles) (lane : Fin 4) (k : Fin 2) (x : Block) : StateM Memory Roles := do
  let base := 4 * lane.val + 2 * k.val
  have h : base + 1 < 16 := by omega
  Memory.write g.third (2 * g.cursor) x[base]
  Memory.write g.third (2 * g.cursor + 1) x[base + 1]
  return { g with cursor := g.cursor + 1 }

/-- Four words of a block, written at the cursor. -/
def record (g : Roles) (lane : Fin 4) (x : Block) : StateM Memory Roles := do
  let g ← recordPair g lane ⟨0, Nat.zero_lt_two⟩ x
  recordPair g lane ⟨1, Nat.one_lt_two⟩ x

/-- One part of a round. Nothing is recorded in the first and in the last round. -/
def part (i : Nat) (g : Roles × Block) (lane : Fin 4) : StateM Memory (Roles × Block) := do
  let x ← gather g.1 lane g.2
  let roles ← if i ≠ 0 ∧ i ≠ 5 then record g.1 lane x else pure g.1
  return (roles, x)

/-- One round: four parts. -/
def round (g : Roles × Block) (i : Nat) : StateM Memory (Roles × Block) :=
  (List.finRange 4).foldlM (part i) g

/-- All six rounds. -/
def rounds (g : Roles) (x : Block) : StateM Memory (Roles × Block) :=
  (List.finRange 6).foldlM (fun g i => round g i.val) (g, x)

/-- The roles after a transformation. -/
def rotate (g : Roles) : Roles := ⟨g.third, g.first, g.second, g.cursor &&& (512 - 1)⟩

/-- The transformation of a block: the table after it, the block, and the accesses. -/
def transform (s : SBox) (x : Block) : SBox × Block × List Access :=
  let ((g, x), m) := rounds s.roles x ⟨s.words, []⟩
  let g := rotate g
  (⟨m.words, g.first, g.second, g.third, g.cursor⟩, x, m.accesses)

end Traced

/-! ## What a computation accesses -/

/-- The written words of a number of entries, from an entry on. -/
def entryWords (region cursor entries : Nat) : List (Nat × Nat) :=
  (List.range' cursor entries).flatMap fun e => [(region, 2 * e), (region, 2 * e + 1)]

theorem entryWords_add (region cursor a b : Nat) :
    entryWords region cursor (a + b) =
      entryWords region cursor a ++ entryWords region (cursor + a) b := by
  rw [entryWords, ← List.range'_append_1, List.flatMap_append, ← entryWords, ← entryWords]

/-- The accesses that read from the two regions of a table that are to be read, and write a number
    of entries of the third at the cursor. -/
structure Footprint (s : SBox) (entries : Nat) (log : List Access) : Prop where
  reads : ∀ region place, .read region place ∈ log →
    (region = s.first ∨ region = s.second) ∧ place < regionWords
  writes : log.filterMap Access.written? = entryWords s.third s.cursor entries

/-- A table further on in the same transformation. -/
def shifted (s : SBox) (entries : Nat) (words : Array UInt32) : SBox :=
  { s with words := words, cursor := s.cursor + entries }

theorem Footprint.append {s : SBox} {a b : Nat} {words : Array UInt32} {log log' : List Access}
    (h : Footprint s a log) (h' : Footprint (s.shifted a words) b log') :
    Footprint s (a + b) (log ++ log') where
  reads region place hmem := by
    rcases List.mem_append.mp hmem with hmem | hmem
    · exact h.reads region place hmem
    · exact h'.reads region place hmem
  writes := by
    rw [List.filterMap_append, h.writes, h'.writes, entryWords_add]
    rfl

/-- Whether a computation over a memory that starts from the words of a table does what takes the
    table to another one, with the entries that it writes there. -/
structure Advances {α : Type} (c : StateM Memory α) (s : SBox) (out : SBox × α) (entries : Nat) :
    Prop where
  shift : out.1 = s.shifted entries out.1.words
  size : out.1.words.size = s.words.size
  run : ∃ log, Footprint s entries log ∧
    ∀ before, c ⟨s.words, before⟩ = (out.2, ⟨out.1.words, before ++ log⟩)

/-- A table and a block, with what a computation knows of the table. -/
def view (out : SBox × Block) : SBox × Roles × Block := (out.1, out.1.roles, out.2)

namespace Advances

variable {α β : Type} {s : SBox}

theorem pure (s : SBox) (a : α) : Advances (Pure.pure a) s (s, a) 0 := by
  refine ⟨rfl, rfl, [], ⟨fun _ _ h => absurd h List.not_mem_nil, rfl⟩, fun before => ?_⟩
  rw [List.append_nil]
  rfl

theorem bind {c : StateM Memory α} {f : α → StateM Memory β} {out : SBox × α} {out' : SBox × β}
    {a b : Nat} (hc : Advances c s out a) (hf : Advances (f out.2) out.1 out' b) :
    Advances (c >>= f) s out' (a + b) := by
  obtain ⟨hshift, hsize, log, hlog, hrun⟩ := hc
  obtain ⟨hshift', hsize', log', hlog', hrun'⟩ := hf
  refine ⟨?_, hsize'.trans hsize, log ++ log', hlog.append (hshift ▸ hlog'), fun before => ?_⟩
  · rw [hshift', hshift]
    simp only [shifted, Nat.add_assoc]
  · have hbind : (c >>= f) ⟨s.words, before⟩ =
        f (c ⟨s.words, before⟩).1 (c ⟨s.words, before⟩).2 := rfl
    rw [hbind, hrun, hrun', List.append_assoc]

/-- A loop whose steps are those of a loop over tables. -/
theorem foldlM {ι : Type} {f : Roles × Block → ι → StateM Memory (Roles × Block)}
    {g : SBox × Block → ι → SBox × Block} {entries : ι → Nat}
    (h : ∀ s x i, Advances (f (s.roles, x) i) s (view (g (s, x) i)) (entries i)) (is : List ι)
    (s : SBox) (x : Block) :
    Advances (is.foldlM f (s.roles, x)) s (view (is.foldl g (s, x))) (is.map entries).sum := by
  induction is generalizing s x with
  | nil => exact pure s (s.roles, x)
  | cons i is ih => exact bind (h s x i) (ih (g (s, x) i).1 (g (s, x) i).2)

end Advances

/-! ## One transformation -/

theorem place_lt (word : UInt32) : Traced.place word + 3 < regionWords := by
  have hmask : (word &&& 0xff0).toNat ≤ 0xff0 := by
    rw [UInt32.toNat_and]
    exact Nat.and_le_right
  rw [Traced.place, regionWords]
  omega

variable {s : SBox}

theorem advances_entry {region place : Nat} (hregion : region = s.first ∨ region = s.second)
    (hplace : place + 1 < regionWords) :
    Advances (Traced.entry region place) s (s, entry s.words (region + place)) 0 := by
  refine ⟨rfl, rfl, [.read region place, .read region (place + 1)], ⟨?_, rfl⟩, fun before => ?_⟩
  · intro region' place' hmem
    simp only [List.mem_cons, Access.read.injEq, List.not_mem_nil, or_false] at hmem
    obtain ⟨rfl, rfl⟩ | ⟨rfl, rfl⟩ := hmem
    · exact ⟨hregion, by omega⟩
    · exact ⟨hregion, hplace⟩
  · -- the record grows by one access at a time
    have happend : before ++ [Access.read region place] ++ [Access.read region (place + 1)] =
        before ++ [.read region place, .read region (place + 1)] := List.append_assoc _ _ _
    rw [← happend]
    rfl

/-- A block with two of its words replaced by the halves of a number. -/
def splitAt (x : Block) (lane : Fin 4) (k : Fin 2) (out : UInt64) : Block :=
  have h : 4 * lane.val + 2 * k.val + 1 < 16 := by omega
  (x.set (4 * lane.val + 2 * k.val) out.toUInt32).set (4 * lane.val + 2 * k.val + 1)
    (out >>> 32).toUInt32

theorem advances_pair (lane : Fin 4) (k : Fin 2) {i j : Nat} (x : Block)
    (hi : i + 3 < regionWords) (hj : j + 3 < regionWords) :
    Advances (Traced.pair s.roles lane k i j x) s (s, splitAt x lane k
      (combine s.words (s.first + (i + 2 * k.val)) (s.second + (j + 2 * k.val))
        x[4 * lane.val + 2 * k.val] x[4 * lane.val + 2 * k.val + 1])) 0 := by
  have hk := k.isLt
  have hi : i + 2 * k.val + 1 < regionWords := by omega
  have hj : j + 2 * k.val + 1 < regionWords := by omega
  -- reading leaves the table, so that both entries are those of the given one
  have hfirst := advances_entry (s := s) (.inl rfl) hi
  have hsecond := advances_entry (s := s) (.inr rfl) hj
  exact hfirst.bind (a := 0) (b := 0) (hsecond.bind (a := 0) (b := 0) (.pure s _))

/-- A replaced pair leaves the words after it as they are. -/
theorem getElem_splitAt (x : Block) (lane : Fin 4) (k : Fin 2) (out : UInt64) {i : Nat}
    (hi : 4 * lane.val + 2 * k.val + 1 < i) (h : i < 16) : (splitAt x lane k out)[i] = x[i] := by
  have hlow : 4 * lane.val + 2 * k.val ≠ i := by omega
  have hhigh : 4 * lane.val + 2 * k.val + 1 ≠ i := by omega
  rw [splitAt, Vector.getElem_set_ne _ h hhigh, Vector.getElem_set_ne _ h hlow]

theorem advances_gather (lane : Fin 4) (x : Block) :
    Advances (Traced.gather s.roles lane x) s (s, s.gather lane x) 0 := by
  have hi := place_lt x[4 * lane.val]
  have hj := place_lt x[4 * lane.val + 1]
  have hpairs := (advances_pair (s := s) lane ⟨0, Nat.zero_lt_two⟩ x hi hj).bind
    (advances_pair (s := s) lane ⟨1, Nat.one_lt_two⟩ _ hi hj)
  -- the second pair still has the words of the block that was given
  rw [getElem_splitAt _ _ _ _ (by simp), getElem_splitAt _ _ _ _ (by simp)] at hpairs
  have hgather : s.gather lane x = splitAt (splitAt x lane ⟨0, Nat.zero_lt_two⟩
      (combine s.words (s.first + Traced.place x[4 * lane.val])
        (s.second + Traced.place x[4 * lane.val + 1]) x[4 * lane.val] x[4 * lane.val + 1]))
      lane ⟨1, Nat.one_lt_two⟩
      (combine s.words (s.first + (Traced.place x[4 * lane.val] + 2))
        (s.second + (Traced.place x[4 * lane.val + 1] + 2))
        x[4 * lane.val + 2] x[4 * lane.val + 3]) := rfl
  rw [hgather]
  exact hpairs

/-- The table with an entry written at the cursor. -/
def written (s : SBox) (low high : UInt32) : SBox :=
  s.shifted 1 ((s.words.setIfInBounds (s.third + 2 * s.cursor) low).setIfInBounds
    (s.third + (2 * s.cursor + 1)) high)

theorem advances_recordPair (s : SBox) (lane : Fin 4) (k : Fin 2) (x : Block) :
    Advances (Traced.recordPair s.roles lane k x) s
      (s.written x[4 * lane.val + 2 * k.val] x[4 * lane.val + 2 * k.val + 1],
        (s.written x[4 * lane.val + 2 * k.val] x[4 * lane.val + 2 * k.val + 1]).roles) 1 := by
  refine ⟨rfl, ?_, [.write s.third (2 * s.cursor), .write s.third (2 * s.cursor + 1)], ⟨?_, rfl⟩,
    fun before => ?_⟩
  · simp only [written, shifted, Array.size_setIfInBounds]
  · intro region place hmem
    simp only [List.mem_cons, reduceCtorEq, List.not_mem_nil, or_false] at hmem
  · have happend : before ++ [Access.write s.third (2 * s.cursor)] ++
        [Access.write s.third (2 * s.cursor + 1)] =
        before ++ [.write s.third (2 * s.cursor), .write s.third (2 * s.cursor + 1)] :=
      List.append_assoc _ _ _
    rw [← happend]
    rfl

theorem advances_record (s : SBox) (lane : Fin 4) (x : Block) :
    Advances (Traced.record s.roles lane x) s (s.record lane x, (s.record lane x).roles) 2 := by
  have hrecord : s.record lane x = (s.written x[4 * lane.val] x[4 * lane.val + 1]).written
      x[4 * lane.val + 2] x[4 * lane.val + 3] := by
    simp only [record, target, written, shifted, Nat.mul_add, Nat.add_assoc, Nat.reduceAdd,
      Nat.reduceMul, Nat.add_zero]
  rw [hrecord]
  exact (advances_recordPair s lane ⟨0, Nat.zero_lt_two⟩ x).bind
    (f := fun g => Traced.recordPair g lane ⟨1, Nat.one_lt_two⟩ x)
    (advances_recordPair _ lane ⟨1, Nat.one_lt_two⟩ x)

/-- One part of a round of the running form. -/
def part (i : Nat) (g : SBox × Block) (lane : Fin 4) : SBox × Block :=
  let x := g.1.gather lane g.2
  (if i = 0 ∨ i = 5 then g.1 else g.1.record lane x, x)

/-- How many entries are written by a part of a round. -/
def partEntries (i : Nat) : Nat := if i = 0 ∨ i = 5 then 0 else 2

theorem advances_part (i : Nat) (s : SBox) (x : Block) (lane : Fin 4) :
    Advances (Traced.part i (s.roles, x) lane) s (view (part i (s, x) lane)) (partEntries i) := by
  have hgather := advances_gather (s := s) lane x
  by_cases hi : i = 0 ∨ i = 5
  · have hrecords : ¬(i ≠ 0 ∧ i ≠ 5) := by omega
    have hpart := hgather.bind (f := fun x => pure (s.roles, x)) (.pure s _)
    simpa only [Traced.part, part, partEntries, view, if_pos hi, if_neg hrecords, pure_bind]
      using hpart
  · have hrecords : i ≠ 0 ∧ i ≠ 5 := by omega
    have hrecord := (advances_record s lane (s.gather lane x)).bind
      (f := fun g => pure (g, s.gather lane x)) (.pure _ _)
    have hpart := hgather.bind
      (f := fun x => Traced.record s.roles lane x >>= fun g => pure (g, x)) hrecord
    simpa only [Traced.part, part, partEntries, view, if_neg hi, if_pos hrecords, Nat.zero_add]
      using hpart

theorem round_eq_foldl (i : Nat) (s : SBox) (x : Block) :
    round i s x = (List.finRange 4).foldl (part i) (s, x) :=
  Fin.foldl_eq_finRange_foldl _ _

theorem advances_round (s : SBox) (x : Block) (i : Nat) :
    Advances (Traced.round (s.roles, x) i) s (view (round i s x)) (4 * partEntries i) := by
  have hsum : ((List.finRange 4).map fun _ => partEntries i).sum = 4 * partEntries i := by
    simp only [List.map_const', List.length_finRange, List.sum_replicate_nat]
  rw [round_eq_foldl, ← hsum]
  exact Advances.foldlM (advances_part i) (List.finRange 4) s x

/-- The six rounds of a transformation in the running form. -/
def allRounds (s : SBox) (x : Block) : SBox × Block :=
  Nat.fold 6 (fun i _ (s, x) => round i s x) (s, x)

theorem transform_eq_allRounds (s : SBox) (x : Block) :
    s.transform x = ((allRounds s x).1.rotate, (allRounds s x).2) := by
  rw [transform, ← allRounds]

theorem fold_eq_foldl_finRange {α : Type} (f : Nat → α → α) (n : Nat) (a : α) :
    Nat.fold n (fun i _ => f i) a = (List.finRange n).foldl (fun a i => f i.val a) a :=
  Nat.fold_eq_finRange_foldl _ _ _

theorem allRounds_eq_foldl (s : SBox) (x : Block) :
    allRounds s x = (List.finRange 6).foldl (fun g i => round i.val g.1 g.2) (s, x) :=
  fold_eq_foldl_finRange (fun i g => round i g.1 g.2) 6 (s, x)

theorem advances_allRounds (s : SBox) (x : Block) :
    Advances (Traced.rounds s.roles x) s (view (allRounds s x)) 32 := by
  have hsum : ((List.finRange 6).map fun i => 4 * partEntries i.val).sum = 32 := by decide
  rw [allRounds_eq_foldl, ← hsum]
  refine Advances.foldlM (fun s x i => ?_) (List.finRange 6) s x
  exact advances_round s x i.val

/-- A transformation over a memory is that of the table, and accesses what it is to access. -/
theorem transform_traced (s : SBox) (x : Block) :
    ∃ log, Traced.transform s x = ((s.transform x).1, (s.transform x).2, log) ∧
      Footprint s 32 log := by
  obtain ⟨-, -, log, hlog, hrun⟩ := advances_allRounds s x
  refine ⟨log, ?_, hlog⟩
  rw [Traced.transform, hrun, transform_eq_allRounds]
  simp only [Traced.rotate, view, roles, rotate, List.nil_append,
    Nat.and_two_pow_sub_one_eq_mod _ 9]

/-! ## The invariant -/

/-- The three regions in some order, a cursor at a multiple of 32 entries inside a region, and all
    words of a table. -/
structure Steady (s : SBox) : Prop where
  regions : [s.first, s.second, s.third].Perm [0, regionWords, 2 * regionWords]
  aligned : 32 ∣ s.cursor
  inside : s.cursor < 512
  size : s.words.size = tableWords

theorem steady_start {words : Array UInt32} (hsize : words.size = tableWords) :
    Steady (start words) where
  regions := (by decide : [2 * regionWords, regionWords, 0].Perm [0, regionWords, 2 * regionWords])
  aligned := Nat.dvd_zero _
  inside := Nat.zero_lt_succ _
  size := hsize

namespace Steady

/-- Entries of a region are a multiple of 32, so that the cursor is never further than 32 from the
    end. -/
theorem cursor_add_le (h : Steady s) : s.cursor + 32 ≤ 512 := by
  obtain ⟨k, hk⟩ := h.aligned
  have hinside := h.inside
  omega

/-- Roles go around when the regions are rotated, and the cursor has advanced by 32 entries. -/
theorem rotate_shifted (h : Steady s) {words : Array UInt32} (hsize : words.size = tableWords) :
    Steady (s.shifted 32 words).rotate where
  regions := by
    have hcycle : [s.third, s.first, s.second].Perm [s.first, s.second, s.third] :=
      @List.perm_append_comm _ [s.third] [s.first, s.second]
    exact hcycle.trans h.regions
  aligned := (Nat.dvd_mod_iff (by decide)).mpr (Nat.dvd_add h.aligned (Nat.dvd_refl 32))
  inside := Nat.mod_lt _ (Nat.zero_lt_succ 511)
  size := hsize

theorem transform (h : Steady s) (x : Block) : Steady (s.transform x).1 := by
  obtain ⟨hshift, hsize, -⟩ := advances_allRounds s x
  simp only [view] at hshift hsize
  rw [transform_eq_allRounds, hshift]
  exact h.rotate_shifted (hsize.trans h.size)

/-- Every region lies inside the table. -/
theorem region_le (h : Steady s) (region : Nat) (hmem : region ∈ [s.first, s.second, s.third]) :
    region + regionWords ≤ s.words.size := by
  have hregion := h.regions.mem_iff.mp hmem
  rw [h.size, tableWords]
  simp only [List.mem_cons, List.not_mem_nil, or_false, regionWords] at hregion ⊢
  omega

/-- A region that is read does not meet the one that is written. -/
theorem apart (h : Steady s) {region : Nat} (hregion : region = s.first ∨ region = s.second) :
    region + regionWords ≤ s.third ∨ s.third + regionWords ≤ region := by
  have hnodup : [s.first, s.second, s.third].Nodup := h.regions.nodup_iff.mpr (by decide)
  have hthird := h.regions.mem_iff.mp (show s.third ∈ [s.first, s.second, s.third] by simp)
  have hmem := h.regions.mem_iff.mp (show region ∈ [s.first, s.second, s.third] by
    rcases hregion with rfl | rfl <;> simp)
  -- regions that do not start at the same place are at least a region apart
  have hne : region ≠ s.third := by
    rintro rfl
    rcases hregion with heq | heq <;> simp [heq] at hnodup
  simp only [List.mem_cons, List.not_mem_nil, or_false, regionWords] at hthird hmem ⊢
  omega

end Steady

/-! ## Runs -/

/-- One transformation: the table ahead of it, and what it accessed. -/
structure Pass where
  table : SBox
  accesses : List Access

/-- Whether a transformation keeps to its regions. -/
structure Pass.Confined (p : Pass) : Prop where
  steady : Steady p.table
  /-- The reads are from the two regions to be read. -/
  reads : ∀ region place, .read region place ∈ p.accesses →
    (region = p.table.first ∨ region = p.table.second) ∧ place < regionWords
  /-- The writes are to the third region. -/
  writes : ∀ region place, .write region place ∈ p.accesses →
    region = p.table.third ∧ place < regionWords
  /-- The writes are those of 32 entries. -/
  entries : p.accesses.filterMap Access.written? = entryWords p.table.third p.table.cursor 32
  /-- Every word that is accessed is a word of the table. -/
  bounded : ∀ a ∈ p.accesses, a.word < p.table.words.size
  /-- No word of the third region is read. -/
  unread : ∀ region place, .read region place ∈ p.accesses →
    ∀ k < regionWords, region + place ≠ p.table.third + k

theorem mem_entryWords {region cursor entries : Nat} {word : Nat × Nat}
    (hmem : word ∈ entryWords region cursor entries) :
    word.1 = region ∧ word.2 < 2 * (cursor + entries) := by
  obtain ⟨e, he, hword⟩ := List.mem_flatMap.mp hmem
  have hlt := (List.mem_range'_1.mp he).2
  simp only [List.mem_cons, List.not_mem_nil, or_false] at hword
  obtain rfl | rfl := hword
  · exact ⟨rfl, by simp only; omega⟩
  · exact ⟨rfl, by simp only; omega⟩

theorem Footprint.confined {log : List Access} (hlog : Footprint s 32 log) (h : Steady s) :
    Pass.Confined ⟨s, log⟩ := by
  have hcursor := h.cursor_add_le
  -- the entries from the cursor on end inside the region
  have hwrites : ∀ region place, .write region place ∈ log →
      region = s.third ∧ place < regionWords := by
    intro region place hmem
    have hwritten : (region, place) ∈ log.filterMap Access.written? :=
      List.mem_filterMap.mpr ⟨_, hmem, rfl⟩
    rw [hlog.writes] at hwritten
    obtain ⟨hregion, hplace⟩ := mem_entryWords hwritten
    simp only at hregion hplace
    exact ⟨hregion, by rw [regionWords]; omega⟩
  refine ⟨h, hlog.reads, hwrites, hlog.writes, ?_, ?_⟩
  · rintro (⟨region, place⟩ | ⟨region, place⟩) hmem
    · obtain ⟨hregion, hplace⟩ := hlog.reads region place hmem
      have hle := h.region_le region (by rcases hregion with rfl | rfl <;> simp)
      exact Nat.lt_of_lt_of_le (Nat.add_lt_add_left hplace region) hle
    · obtain ⟨rfl, hplace⟩ := hwrites region place hmem
      have hle := h.region_le s.third (by simp)
      exact Nat.lt_of_lt_of_le (Nat.add_lt_add_left hplace _) hle
  · intro region place hmem k hk
    obtain ⟨hregion, hplace⟩ := hlog.reads region place hmem
    have hapart := h.apart hregion
    simp only
    omega

/-- A table, and the transformations that it has gone through. -/
structure Trace where
  table : SBox
  passes : List Pass

namespace Trace

/-- The transformation of a block. -/
def transform (x : Block) : StateM Trace Block := fun t =>
  let (table, y, accesses) := Traced.transform t.table x
  (y, ⟨table, t.passes ++ [⟨t.table, accesses⟩]⟩)

/-- A block added to the output before it, and the sum transformed. -/
def output (g : Block × Array Block) (b : Block) : StateM Trace (Block × Array Block) := do
  let y ← transform (g.1.xor b)
  return (y, g.2.push y)

/-- The mixing of a state. -/
def mix (c : Chunk) : StateM Trace Chunk := do
  let (_, ys) ← c.foldlM output (last c, #[])
  return (ys.modify (ys.size - 1) (core 1)).toList

end Trace

/-- A use of a table. -/
inductive Call
  | transform (x : Block)
  | mix (c : Chunk)

namespace Call

/-- The table and the blocks after a use. -/
def run (s : SBox) : Call → SBox × Chunk
  | transform x => ((s.transform x).1, [(s.transform x).2])
  | mix c => s.mix c

/-- The same with a record. -/
def trace : Call → StateM Trace Chunk
  | transform x => do
    let y ← Trace.transform x
    return [y]
  | mix c => Trace.mix c

/-- The transformations of a use. -/
def count : Call → Nat
  | transform _ => 1
  | mix c => c.length

/-- The table and the blocks after uses one after the other. -/
def runAll : List Call → SBox → SBox × List Chunk
  | [], s => (s, [])
  | call :: calls, s =>
    let (s, c) := run s call
    let (s, cs) := runAll calls s
    (s, c :: cs)

/-- The same with a record. -/
def traceAll : List Call → StateM Trace (List Chunk)
  | [] => return []
  | call :: calls => do
    let c ← trace call
    let cs ← traceAll calls
    return c :: cs

end Call

/-- Whether a recorded computation takes a table to another one in a number of transformations that
    keep to their regions. -/
structure Follows {α : Type} (c : StateM Trace α) (s : SBox) (out : SBox × α) (count : Nat) :
    Prop where
  steady : Steady out.1
  run : ∃ passes : List Pass, passes.length = count ∧ (∀ p ∈ passes, p.Confined) ∧
    ∀ before, c ⟨s, before⟩ = (out.2, ⟨out.1, before ++ passes⟩)

namespace Follows

variable {α β : Type}

theorem pure (h : Steady s) (a : α) : Follows (Pure.pure a) s (s, a) 0 := by
  refine ⟨h, [], rfl, fun _ h => absurd h List.not_mem_nil, fun before => ?_⟩
  rw [List.append_nil]
  rfl

theorem bind {c : StateM Trace α} {f : α → StateM Trace β} {out : SBox × α} {out' : SBox × β}
    {a b : Nat} (hc : Follows c s out a) (hf : Follows (f out.2) out.1 out' b) :
    Follows (c >>= f) s out' (a + b) := by
  obtain ⟨-, passes, hlen, hpasses, hrun⟩ := hc
  obtain ⟨hsteady, passes', hlen', hpasses', hrun'⟩ := hf
  refine ⟨hsteady, passes ++ passes', by rw [List.length_append, hlen, hlen'], ?_, fun before => ?_⟩
  · intro p hmem
    exact (List.mem_append.mp hmem).elim (hpasses p) (hpasses' p)
  · have hbind : (c >>= f) ⟨s, before⟩ = f (c ⟨s, before⟩).1 (c ⟨s, before⟩).2 := rfl
    rw [hbind, hrun, hrun', List.append_assoc]

end Follows

theorem follows_transform (h : Steady s) (x : Block) :
    Follows (Trace.transform x) s (s.transform x) 1 := by
  obtain ⟨log, htraced, hlog⟩ := transform_traced s x
  refine ⟨h.transform x, [⟨s, log⟩], rfl, ?_, fun before => ?_⟩
  · intro p hmem
    rw [List.mem_singleton.mp hmem]
    exact hlog.confined h
  · rw [Trace.transform, htraced]

/-- The step of the loop over the blocks of a state. -/
def output (g : SBox × Block × Array Block) (b : Block) : SBox × Block × Array Block :=
  let out := g.1.transform (g.2.1.xor b)
  (out.1, out.2, g.2.2.push out.2)

theorem follows_output (h : Steady s) (x : Block) (ys : Array Block) (b : Block) :
    Follows (Trace.output (x, ys) b) s (output (s, x, ys) b) 1 := by
  have hstep := follows_transform h (x.xor b)
  exact hstep.bind (b := 0) (.pure hstep.steady _)

theorem follows_outputs (h : Steady s) (c : Chunk) (x : Block) (ys : Array Block) :
    Follows (c.foldlM Trace.output (x, ys)) s (c.foldl output (s, x, ys)) c.length := by
  induction c generalizing s x ys with
  | nil => exact .pure h (x, ys)
  | cons b c ih =>
    -- the rest of the blocks meet the table that this one has left
    have hstep := follows_output h x ys b
    rw [List.foldlM_cons, List.foldl_cons, List.length_cons, Nat.add_comm]
    exact hstep.bind (ih hstep.steady (output (s, x, ys) b).2.1 (output (s, x, ys) b).2.2)

theorem outputs_eq_foldl (s : SBox) (c : Chunk) :
    s.outputs c = ((c.foldl output (s, last c, #[])).1, (c.foldl output (s, last c, #[])).2.2) := by
  rw [outputs, List.foldl_ext _ output]
  rintro ⟨s, x, ys⟩ b -
  -- with the result named, nothing of the transformation is unfolded
  rcases hout : s.transform (x.xor b) with ⟨s', y⟩
  simp only [output, hout]

theorem follows_mix (h : Steady s) (c : Chunk) : Follows (Trace.mix c) s (s.mix c) c.length := by
  have houtputs := follows_outputs h c (last c) #[]
  rw [mix, outputs_eq_foldl]
  exact houtputs.bind (b := 0) (.pure houtputs.steady _)

theorem follows_call (h : Steady s) (call : Call) :
    Follows call.trace s (call.run s) call.count := by
  cases call with
  | transform x =>
    have hstep := follows_transform h x
    exact hstep.bind (b := 0) (.pure hstep.steady _)
  | mix c => exact follows_mix h c

theorem follows_calls (h : Steady s) (calls : List Call) :
    Follows (Call.traceAll calls) s (Call.runAll calls s) (calls.map Call.count).sum := by
  induction calls generalizing s with
  | nil => exact .pure h []
  | cons call calls ih =>
    have hcall := follows_call h call
    have hrest := ih hcall.steady
    exact hcall.bind (hrest.bind (b := 0) (.pure hrest.steady _))

/-- From a fresh table on, whatever its words are, uses of it leave the regions in some order and
    the cursor inside a region, and none of the transformations they are made of leaves its regions.
    The recorded form gives the tables and the blocks of the running one. -/
theorem calls_confined {words : Array UInt32} (hsize : words.size = tableWords)
    (calls : List Call) :
    ∃ passes : List Pass,
      Call.traceAll calls ⟨start words, []⟩ =
        ((Call.runAll calls (start words)).2, ⟨(Call.runAll calls (start words)).1, passes⟩) ∧
      Steady (Call.runAll calls (start words)).1 ∧
      passes.length = (calls.map Call.count).sum ∧ ∀ p ∈ passes, p.Confined := by
  obtain ⟨hsteady, passes, hlen, hpasses, hrun⟩ := follows_calls (steady_start hsize) calls
  exact ⟨passes, hrun [], hsteady, hlen, hpasses⟩

/-- A block and a state of two blocks on a table of zeros: three transformations. -/
theorem calls_confined_zeros :
    let words : Array UInt32 := Array.replicate tableWords 0
    let zeros : Block := Vector.replicate 16 0
    let calls : List Call := [.transform zeros, .mix [zeros, zeros]]
    words.size = tableWords ∧ ∃ passes : List Pass,
      Call.traceAll calls ⟨start words, []⟩ =
        ((Call.runAll calls (start words)).2, ⟨(Call.runAll calls (start words)).1, passes⟩) ∧
      Steady (Call.runAll calls (start words)).1 ∧ passes.length = 3 ∧
      ∀ p ∈ passes, p.Confined :=
  ⟨Array.size_replicate, calls_confined Array.size_replicate
    [.transform (Vector.replicate 16 0), .mix [Vector.replicate 16 0, Vector.replicate 16 0]]⟩

end SBox

end Yescrypt

end PassHash
