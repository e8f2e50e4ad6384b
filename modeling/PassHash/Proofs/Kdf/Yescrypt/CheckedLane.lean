import PassHash.Proofs.Kdf.Yescrypt.WordSizes

/-!
# Lanes with Checked Places

The table of a step is one array of words. A lane fills a part of it and reads it at places that are
computed in words of 64 bits from what the lane holds at the time. Here every access is checked
against the part that it is meant for, and a state is not read back before it was filled. No check
fails for a part of a table that was filled up to where the part starts, and what comes out is what
comes out without checks, where a table grows by a state at a time.

## Contents

- `Part`: a part of a table
- `Word64.stateAt`, `Word64.readBackAt`: checked places
- `Word64.fill`, `Word64.lookUp`, `Word64.withSBox`: the work of a lane with checked places
- `Word64.Agrees`: a table that was filled up to a state

## Main statements

- `Word64.foldlM_simulates`: loops whose steps do not fail
- `Word64.fillStep_eq_ok`, `Word64.lookUpStep_eq_ok`: one state
- `Word64.fill_eq_ok`, `Word64.lookUp_eq_ok`: all states
- `Word64.withSBox_eq_ok`: the S-box of a lane
-/

namespace PassHash

namespace Yescrypt

open Salsa20 BlockMix

/-- A part of a table: its first state and how many there are. -/
structure Part where
  first : Nat
  states : Nat
  deriving DecidableEq, Repr

namespace Word64

/-! ## Places -/

/-- Refuses what is not in an array of `len` words. -/
def range (low high len : Nat) : Except Fault Unit :=
  if low ≤ high ∧ high ≤ len then .ok () else .error .outside

/-- Refuses `count` units from a unit on, each of `size` words, outside of `len` words. -/
def units (size len first count : Nat) : Except Fault Unit := do
  let low ← mul first size
  let high ← mul (← add first count) size
  range low high len

/-- The state at a place of a part, when states have `size` words. -/
def stateAt (size : Nat) (a : Part) (j : Nat) : Except Fault Nat := do
  units size (a.states * size) j 1
  return a.first + j

/-- The number that decides which place is read next. -/
def integerify (l : Lane) : Except Fault Nat :=
  let b := last l.blocks
  add ((b.get 13).toNat <<< 32) (b.get 0).toNat

theorem units_eq_ok {size len first count : Nat} (hsize : 0 < size) (hlen : len < 2 ^ 64)
    (h : (first + count) * size ≤ len) : units size len first count = .ok () := by
  have hcount : first + count ≤ (first + count) * size := Nat.le_mul_of_pos_right _ hsize
  have hfirst : first * size ≤ (first + count) * size :=
    Nat.mul_le_mul_right size (Nat.le_add_right first count)
  have hrange : range (first * size) ((first + count) * size) len = .ok () := if_pos ⟨hfirst, h⟩
  simp only [units, mul_eq_ok (Nat.lt_of_le_of_lt (Nat.le_trans hfirst h) hlen),
    add_eq_ok (Nat.lt_of_le_of_lt (Nat.le_trans hcount h) hlen),
    mul_eq_ok (Nat.lt_of_le_of_lt h hlen), hrange, bind, Except.bind]

theorem stateAt_eq_ok {size j : Nat} {a : Part} (hsize : 0 < size)
    (hlen : a.states * size < 2 ^ 64) (h : j < a.states) :
    stateAt size a j = .ok (a.first + j) := by
  have hle : (j + 1) * size ≤ a.states * size := Nat.mul_le_mul_right size h
  have hunits := units_eq_ok hsize hlen hle
  simp only [stateAt, hunits, bind, Except.bind, pure, Except.pure]

theorem add_halves (low high : UInt32) :
    add (high.toNat <<< 32) low.toNat = .ok (low.toNat + (high.toNat <<< 32)) := by
  have hlow := low.toNat_lt
  have hhigh := high.toNat_lt
  have hsum : high.toNat <<< 32 + low.toNat < 2 ^ 64 := by
    rw [Nat.shiftLeft_eq]
    omega
  rw [add_eq_ok hsum, Nat.add_comm]

theorem integerify_eq_ok (l : Lane) : integerify l = .ok l.integerify :=
  add_halves _ _

/-! ## Tables -/

/-- The state at a place of a table. -/
def readAt (table : Array Chunk) (k : Nat) : Except Fault Chunk :=
  match table[k]? with
  | some c => .ok c
  | none => .error .outside

/-- A table with the state at a place replaced. -/
def writeAt (table : Array Chunk) (k : Nat) (c : Chunk) : Except Fault (Array Chunk) :=
  if k < table.size then .ok (table.setIfInBounds k c) else .error .outside

/-- The place in a part that is read while state `i` is filled; nothing is there from `i` on. -/
def readBackAt (size : Nat) (a : Part) (i : Nat) (l : Lane) : Except Fault Nat := do
  let j ← wrap (← integerify l) i
  if j < i then stateAt size a j else .error .unfilled

/-- One state filled. -/
def fillStep (size : Nat) (readBack : Bool) (a : Part) (g : Array Chunk × Lane) (i : Nat) :
    Except Fault (Array Chunk × Lane) := do
  let table ← writeAt g.1 (← stateAt size a i) g.2.blocks
  if readBack ∧ 1 < i then do
    let c ← readAt table (← readBackAt size a i g.2)
    return (table, (g.2.add c).mix)
  else return (table, g.2.mix)

/-- All states of a part filled. -/
def fill (size : Nat) (readBack : Bool) (a : Part) (table : Array Chunk) (l : Lane) :
    Except Fault (Array Chunk × Lane) :=
  (List.range a.states).foldlM (fillStep size readBack a) (table, l)

/-- One state read, among the first `n` of a part. -/
def lookUpStep (size : Nat) (writeBack : Bool) (a : Part) (n : Nat) (g : Array Chunk × Lane) :
    Except Fault (Array Chunk × Lane) := do
  let j := (← integerify g.2) &&& (← sub n 1)
  let k ← stateAt size a j
  let l := g.2.add (← readAt g.1 k)
  if writeBack then return (← writeAt g.1 k l.blocks, l.mix) else return (g.1, l.mix)

/-- As many states read as a count says. -/
def lookUp (size : Nat) (writeBack : Bool) (a : Part) (n count : Nat) (table : Array Chunk)
    (l : Lane) : Except Fault (Array Chunk × Lane) :=
  (List.range count).foldlM (fun g _ => lookUpStep size writeBack a n g) (table, l)

/-! ## Loops -/

/-- A loop whose steps do not fail does not fail, and keeps a relation to a loop without checks that
    its steps keep. -/
theorem foldlM_simulates {α β ι : Type} {f : α → ι → Except Fault α} {g : β → ι → β}
    (R : Nat → α → β → Prop) (is : List ι) {a : α} {b : β} (h : R 0 a b)
    (hstep : ∀ i (hi : i < is.length) a b, R i a b →
      ∃ a', f a is[i] = .ok a' ∧ R (i + 1) a' (g b is[i])) :
    ∃ a', is.foldlM f a = .ok a' ∧ R is.length a' (is.foldl g b) := by
  induction is generalizing R a b with
  | nil => exact ⟨a, rfl, h⟩
  | cons x is ih =>
    obtain ⟨a', ha', h'⟩ := hstep 0 (Nat.zero_lt_succ _) a b h
    -- the rest of the loop starts at step one of the whole
    obtain ⟨a'', ha'', h''⟩ := ih (fun i => R (i + 1)) h' fun i hi =>
      hstep (i + 1) (Nat.succ_lt_succ hi)
    refine ⟨a'', ?_, h''⟩
    rw [List.foldlM_cons]
    show (f a x >>= _) = _
    rw [show f a x = .ok a' from ha']
    exact ha''

theorem fold_eq_foldl_range {β : Type} (g : Nat → β → β) (n : Nat) (b : β) :
    Nat.fold n (fun i _ => g i) b = (List.range n).foldl (fun b i => g i b) b := by
  induction n with
  | zero => rfl
  | succ n ih => rw [Nat.fold_succ, ih, List.range_succ, List.foldl_append, List.foldl_cons,
      List.foldl_nil]

theorem foldlM_range_simulates {α β : Type} {f : α → Nat → Except Fault α} {g : Nat → β → β}
    (R : Nat → α → β → Prop) (n : Nat) {a : α} {b : β} (h : R 0 a b)
    (hstep : ∀ i < n, ∀ a b, R i a b → ∃ a', f a i = .ok a' ∧ R (i + 1) a' (g i b)) :
    ∃ a', (List.range n).foldlM f a = .ok a' ∧ R n a' (Nat.fold n (fun i _ => g i) b) := by
  rw [fold_eq_foldl_range]
  have hrun := foldlM_simulates (g := fun b i => g i b) R (List.range n) h fun i hi a b hr => by
    rw [List.getElem_range]
    rw [List.length_range] at hi
    exact hstep i hi a b hr
  rwa [List.length_range] at hrun

/-! ## Tables that agree -/

/-- Whether a table of `n` states starts with the states that were filled so far. -/
structure Agrees (n : Nat) (table filled : Array Chunk) : Prop where
  size : table.size = n
  le : filled.size ≤ n
  get : ∀ k < filled.size, table[k]? = filled[k]?

namespace Agrees

variable {n k : Nat} {table filled : Array Chunk}

theorem empty (table : Array Chunk) : Agrees table.size table #[] :=
  ⟨rfl, Nat.zero_le _, fun _ h => absurd h (Nat.not_lt_zero _)⟩

theorem readAt_eq_ok (h : Agrees n table filled) (hk : k < filled.size) :
    readAt table k = .ok (filled.getD k []) := by
  rw [readAt, h.get k hk, Array.getElem?_eq_getElem hk]
  simp [hk]

theorem writeAt_eq_ok (h : Agrees n table filled) (hk : k < n) (c : Chunk) :
    writeAt table k c = .ok (table.setIfInBounds k c) :=
  if_pos (h.size ▸ hk)

theorem push (h : Agrees n table filled) (hlt : filled.size < n) (c : Chunk) :
    Agrees n (table.setIfInBounds filled.size c) (filled.push c) where
  size := by rw [Array.size_setIfInBounds, h.size]
  le := by rw [Array.size_push]; exact hlt
  get k hk := by
    rw [Array.size_push] at hk
    rw [Array.getElem?_setIfInBounds, Array.getElem?_push, h.size]
    by_cases heq : filled.size = k
    · rw [if_pos heq, if_pos heq.symm, if_pos (heq ▸ hlt)]
    · rw [if_neg heq, if_neg (Ne.symm heq), h.get k (by omega)]

theorem set (h : Agrees n table filled) (hk : k < filled.size) (c : Chunk) :
    Agrees n (table.setIfInBounds k c) (filled.setIfInBounds k c) where
  size := by rw [Array.size_setIfInBounds, h.size]
  le := by rw [Array.size_setIfInBounds]; exact h.le
  get i hi := by
    rw [Array.size_setIfInBounds] at hi
    rw [Array.getElem?_setIfInBounds, Array.getElem?_setIfInBounds, h.get i hi, h.size]
    have hn := Nat.lt_of_lt_of_le hk h.le
    by_cases heq : k = i
    · rw [if_pos heq, if_pos heq, if_pos hn, if_pos hk]
    · rw [if_neg heq, if_neg heq]

/-- Filled to the end, the tables are the same. -/
theorem eq (h : Agrees n table filled) (hfull : filled.size = n) : table = filled := by
  apply Array.ext (h.size.trans hfull.symm)
  intro i hi hi'
  have hget := h.get i hi'
  rwa [Array.getElem?_eq_getElem hi, Array.getElem?_eq_getElem hi', Option.some.injEq] at hget

end Agrees

/-! ## Filling and reading -/

section Lanes

variable {size n : Nat} {a : Part} {table filled : Array Chunk}

/-- A part of a table of `n` states of `size` words. -/
structure Inside (size n : Nat) (a : Part) : Prop where
  positive : 0 < size
  words : n * size < 2 ^ 64
  states : a.first + a.states ≤ n

theorem Inside.stateAt_eq_ok (h : Inside size n a) {j : Nat} (hj : j < a.states) :
    stateAt size a j = .ok (a.first + j) := by
  have hle : a.states * size ≤ n * size :=
    Nat.mul_le_mul_right size (Nat.le_trans (Nat.le_add_left ..) h.states)
  exact Word64.stateAt_eq_ok h.positive (Nat.lt_of_le_of_lt hle h.words) hj

/-- The place that is read back is one of those that were filled. -/
theorem readBackAt_eq_ok (h : Inside size n a) {i : Nat} (hpos : 0 < i) (hi : i < a.states)
    (l : Lane) : readBackAt size a i l = .ok (a.first + wrapBelow l.integerify i) := by
  have hbelow := wrapBelow_lt l.integerify hpos
  have hstates : a.states ≤ n * size :=
    Nat.le_trans (Nat.le_trans (Nat.le_add_left ..) h.states) (Nat.le_mul_of_pos_right n h.positive)
  have hword : i < 2 ^ 64 := Nat.lt_trans (Nat.lt_of_lt_of_le hi hstates) h.words
  simp only [readBackAt, integerify_eq_ok, wrap_eq_ok _ hpos hword, if_pos hbelow,
    h.stateAt_eq_ok (Nat.lt_trans hbelow hi), bind, Except.bind]

/-- One state filled, with the part's states filled so far. -/
def fillNext (readBack : Bool) (base i : Nat) (g : Array Chunk × Lane) : Array Chunk × Lane :=
  let table := g.1.push g.2.blocks
  (table, (if readBack ∧ 1 < i then
    g.2.add (table.getD (base + wrapBelow g.2.integerify i) []) else g.2).mix)

theorem fill_eq_fold (readBack : Bool) (n : Nat) (table : Array Chunk) (l : Lane) :
    l.fill readBack n table = Nat.fold n (fun i _ => fillNext readBack table.size i) (table, l) :=
  rfl

theorem fillStep_eq_ok (h : Inside size n a) (hagrees : Agrees n table filled) {i : Nat}
    (hi : i < a.states) (hfilled : filled.size = a.first + i) (readBack : Bool) (l : Lane) :
    ∃ table', fillStep size readBack a (table, l) i =
        .ok (table', (fillNext readBack a.first i (filled, l)).2) ∧
      Agrees n table' (filled.push l.blocks) := by
  have hlt : filled.size < n := by
    have hle := h.states
    omega
  have hpush := hagrees.push hlt l.blocks
  refine ⟨table.setIfInBounds filled.size l.blocks, ?_, hpush⟩
  -- the state is written where the states filled so far end
  have hwrite := hagrees.writeAt_eq_ok hlt l.blocks
  by_cases hback : readBack ∧ 1 < i
  · have hpos : 0 < i := Nat.lt_trans Nat.zero_lt_one hback.2
    have hread := hpush.readAt_eq_ok (k := a.first + wrapBelow l.integerify i) (by
      have hbelow := wrapBelow_lt l.integerify hpos
      rw [Array.size_push]
      omega)
    simp only [fillStep, fillNext, h.stateAt_eq_ok hi, ← hfilled, hwrite, if_pos hback,
      readBackAt_eq_ok h hpos hi, bind, Except.bind]
    rw [hread]
    rfl
  · simp only [fillStep, fillNext, h.stateAt_eq_ok hi, ← hfilled, hwrite, if_neg hback, bind,
      Except.bind, pure, Except.pure]

/-- A lane fills its part, and what was filled before stays. -/
theorem fill_eq_ok (h : Inside size n a) (hagrees : Agrees n table filled)
    (hfilled : filled.size = a.first) (readBack : Bool) (l : Lane) :
    ∃ table', fill size readBack a table l = .ok (table', (l.fill readBack a.states filled).2) ∧
      Agrees n table' (l.fill readBack a.states filled).1 ∧
      (l.fill readBack a.states filled).1.size = a.first + a.states := by
  rw [fill_eq_fold, hfilled]
  -- after `i` states the lanes are the same, and the tables agree up to there
  obtain ⟨⟨table', l'⟩, hrun, hlane, hagrees', hsize⟩ := foldlM_range_simulates
    (f := fillStep size readBack a) (g := fillNext readBack a.first)
    (a := (table, l)) (b := (filled, l))
    (fun i g g' => g.2 = g'.2 ∧ Agrees n g.1 g'.1 ∧ g'.1.size = a.first + i) a.states
    ⟨rfl, hagrees, hfilled⟩ (by
      rintro i hi ⟨table, l⟩ ⟨filled, l'⟩ ⟨hlane, hagrees, hfilled⟩
      obtain rfl : l = l' := hlane
      obtain ⟨table', hstep, hagrees'⟩ := fillStep_eq_ok h hagrees hi hfilled readBack l
      refine ⟨_, hstep, rfl, hagrees', ?_⟩
      rw [fillNext, Array.size_push, hfilled, Nat.add_assoc])
  obtain rfl : l' = _ := hlane
  exact ⟨table', hrun, hagrees', hsize⟩

/-- One state read, among the first `w` from a place on. -/
def readNext (writeBack : Bool) (base w : Nat) (g : Array Chunk × Lane) : Array Chunk × Lane :=
  let place := base + g.2.integerify % w
  let l := g.2.add (g.1.getD place [])
  (if writeBack then g.1.setIfInBounds place l.blocks else g.1, l.mix)

theorem lookUp_eq_fold (writeBack : Bool) (base w count : Nat) (table : Array Chunk) (l : Lane) :
    l.lookUp writeBack base w count table =
      Nat.fold count (fun _ _ => readNext writeBack base w) (table, l) :=
  rfl

theorem and_sub_one {w : Nat} (hw : w = floorPow2 w) (x : Nat) : x &&& (w - 1) = x % w := by
  have hand := and_floorPow2_sub_one x w
  rwa [← hw] at hand

/-- What a lane reads lies among the first states of its part. -/
theorem lookUpStep_eq_ok (h : Inside size n a) (hagrees : Agrees n table filled)
    (hfilled : a.first + a.states ≤ filled.size) {w : Nat} (hw : w = floorPow2 w)
    (hle : w ≤ a.states) (writeBack : Bool) (l : Lane) :
    ∃ table', lookUpStep size writeBack a w (table, l) =
        .ok (table', (readNext writeBack a.first w (filled, l)).2) ∧
      Agrees n table' (readNext writeBack a.first w (filled, l)).1 ∧
      (readNext writeBack a.first w (filled, l)).1.size = filled.size := by
  have hpos : 0 < w := hw ▸ floorPow2_pos w
  have hmod := Nat.mod_lt l.integerify hpos
  have hplace := h.stateAt_eq_ok (Nat.lt_of_lt_of_le hmod hle)
  have hlt : a.first + l.integerify % w < filled.size := by omega
  have hread := hagrees.readAt_eq_ok hlt
  cases writeBack with
  | true =>
    have hwrite := hagrees.writeAt_eq_ok (Nat.lt_of_lt_of_le hlt hagrees.le)
      (l.add (filled.getD (a.first + l.integerify % w) [])).blocks
    refine ⟨_, ?_, hagrees.set hlt _, Array.size_setIfInBounds⟩
    simp only [lookUpStep, readNext, integerify_eq_ok, sub_eq_ok hpos, and_sub_one hw, hplace,
      hread, if_true, hwrite, bind, Except.bind, pure, Except.pure]
  | false =>
    refine ⟨table, ?_, hagrees, rfl⟩
    simp only [lookUpStep, readNext, integerify_eq_ok, sub_eq_ok hpos, and_sub_one hw, hplace,
      hread, Bool.false_eq_true, if_false, bind, Except.bind, pure, Except.pure]

/-- A lane reads its part, or what is read of the whole table. -/
theorem lookUp_eq_ok (h : Inside size n a) (hagrees : Agrees n table filled)
    (hfilled : a.first + a.states ≤ filled.size) {w : Nat} (hw : w = floorPow2 w)
    (hle : w ≤ a.states) (writeBack : Bool) (count : Nat) (l : Lane) :
    ∃ table', lookUp size writeBack a w count table l =
        .ok (table', (l.lookUp writeBack a.first w count filled).2) ∧
      Agrees n table' (l.lookUp writeBack a.first w count filled).1 ∧
      (l.lookUp writeBack a.first w count filled).1.size = filled.size := by
  rw [lookUp_eq_fold]
  -- reading may replace states, but fills none
  obtain ⟨⟨table', l'⟩, hrun, hlane, hagrees', hsize⟩ := foldlM_range_simulates
    (f := fun g _ => lookUpStep size writeBack a w g) (g := fun _ => readNext writeBack a.first w)
    (a := (table, l)) (b := (filled, l))
    (fun _ g g' => g.2 = g'.2 ∧ Agrees n g.1 g'.1 ∧ g'.1.size = filled.size) count
    ⟨rfl, hagrees, rfl⟩ (by
      rintro i - ⟨table, l⟩ ⟨filled', l'⟩ ⟨hlane, hagrees, hsize⟩
      obtain rfl : l = l' := hlane
      obtain ⟨table', hstep, hagrees', hsize'⟩ :=
        lookUpStep_eq_ok h hagrees (hsize ▸ hfilled) hw hle writeBack l
      exact ⟨_, hstep, rfl, hagrees', hsize'.trans hsize⟩)
  obtain rfl : l' = _ := hlane
  exact ⟨table', hrun, hagrees', hsize⟩

/-- Reading without writing leaves a table as it is. -/
theorem lookUp_false_fst (base w count : Nat) (table : Array Chunk) (l : Lane) :
    (l.lookUp false base w count table).1 = table := by
  rw [lookUp_eq_fold]
  induction count with
  | zero => rfl
  | succ count ih => rw [Nat.fold_succ, readNext, if_neg Bool.false_ne_true, ih]

end Lanes

/-! ## S-boxes -/

/-- The lane with an S-box from a table and from the blocks that were left when it was filled. -/
def boxed (l : Lane) (g : Array Chunk × Lane) : Lane :=
  ⟨g.2.blocks ++ l.blocks.drop 2, some (SBox.start
    (g.1.foldl (fun words c => c.foldl (fun words b => words ++ b.toArray) words) #[]))⟩

theorem withSBox_eq_boxed (l : Lane) :
    l.withSBox = boxed l (Lane.fill false Lane.sboxStates #[] ⟨l.blocks.take 2, none⟩) := by
  rw [Lane.withSBox]
  rcases Lane.fill false Lane.sboxStates #[] ⟨l.blocks.take 2, none⟩ with ⟨table, seed⟩
  rfl

/-- The lane with an S-box, whose table has states of two blocks. -/
def withSBox (l : Lane) : Except Fault Lane := do
  let g ← fill 32 false ⟨0, Lane.sboxStates⟩ (Array.replicate Lane.sboxStates [])
    ⟨l.blocks.take 2, none⟩
  return boxed l g

theorem withSBox_eq_ok (l : Lane) : withSBox l = .ok l.withSBox := by
  have hinside : Inside 32 Lane.sboxStates ⟨0, Lane.sboxStates⟩ :=
    ⟨by decide, by decide, Nat.le_of_eq (Nat.zero_add _)⟩
  have hblank := Agrees.empty (Array.replicate Lane.sboxStates ([] : Chunk))
  rw [Array.size_replicate] at hblank
  -- whatever the table held is overwritten
  obtain ⟨table, hfill, hagrees, hsize⟩ :=
    fill_eq_ok hinside hblank rfl false ⟨l.blocks.take 2, none⟩
  rw [withSBox, hfill, hagrees.eq (hsize.trans (Nat.zero_add _)), withSBox_eq_boxed]
  rfl

end Word64

end Yescrypt

end PassHash
