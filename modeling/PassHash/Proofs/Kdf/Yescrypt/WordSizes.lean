import Mathlib.Tactic.Ring
import PassHash.Proofs.Kdf.Traced

/-!
# Sizes and Loop Counts in Words

The sizes of the memory, the loop counts and the places in a table are computed in words of 64 bits.
With the parameters of a step that is not refused nothing leaves the word: the table, and all lanes
together, have at most `Params.maxMemory` bytes, and the time parameter has 32 bits.

## Contents

- `Fault`, `Word64`: arithmetic that refuses a result out of range
- `Word64.topBit`, `Word64.wrap`: places for reading
- `Word64.counts`: loop counts
- `Word64.sizes`: sizes of the memory

## Main statements

- `Word64.topBit_eq_ok`, `Word64.wrap_eq_ok`, `Word64.counts_eq_ok`, `Word64.sizes_eq_ok`: no step
  leaves the word
- `wrapBelow_lt`: a place below a number
-/

namespace PassHash

namespace Yescrypt

/-! ## Words -/

/-- A number out of range, a place outside of the part of an array that it is meant for, or a place
    that nothing was written to. -/
inductive Fault
  | overflow
  | outside
  | unfilled
  deriving DecidableEq, Repr

namespace Word64

/-- A number of 64 bits. -/
def ofNat (n : Nat) : Except Fault Nat := if n < 2 ^ 64 then .ok n else .error .overflow

/-- The sum of two words. -/
def add (a b : Nat) : Except Fault Nat := ofNat (a + b)

/-- The product of two words. -/
def mul (a b : Nat) : Except Fault Nat := ofNat (a * b)

/-- The difference of two words. -/
def sub (a b : Nat) : Except Fault Nat := if b ≤ a then .ok (a - b) else .error .overflow

/-- The quotient of two words. -/
def div (a b : Nat) : Except Fault Nat := if 0 < b then .ok (a / b) else .error .overflow

variable {a b : Nat}

theorem add_eq_ok (h : a + b < 2 ^ 64) : add a b = .ok (a + b) := if_pos h

theorem mul_eq_ok (h : a * b < 2 ^ 64) : mul a b = .ok (a * b) := if_pos h

theorem sub_eq_ok (h : b ≤ a) : sub a b = .ok (a - b) := if_pos h

theorem div_eq_ok (h : 0 < b) : div a b = .ok (a / b) := if_pos h

end Word64

/-! ## Powers of two -/

variable {x i : Nat}

theorem floorPow2_eq (x : Nat) : floorPow2 x = 2 ^ x.log2 := Nat.one_shiftLeft _

theorem floorPow2_pos (x : Nat) : 0 < floorPow2 x := by
  rw [floorPow2_eq]
  exact Nat.two_pow_pos _

theorem floorPow2_le (h : 0 < x) : floorPow2 x ≤ x := by
  rw [floorPow2_eq]
  exact Nat.log2_self_le (Nat.ne_of_gt h)

/-- A place for reading is one of those that come before. -/
theorem wrapBelow_lt (x : Nat) (h : 0 < i) : wrapBelow x i < i := by
  have hlt := Nat.mod_lt x (floorPow2_pos i)
  have hle := floorPow2_le h
  rw [wrapBelow]
  omega

/-- The lower bits of a number, below a power of two. -/
theorem and_floorPow2_sub_one (x i : Nat) : x &&& (floorPow2 i - 1) = x % floorPow2 i := by
  rw [floorPow2_eq, Nat.and_two_pow_sub_one_eq_mod]

/-- A number with its lowest bit cleared has the same highest one, unless that is its only bit. -/
theorem floorPow2_and_sub_one (h : 0 < x) (hne : x ≠ floorPow2 x) :
    x &&& (x - 1) ≠ 0 ∧ floorPow2 (x &&& (x - 1)) = floorPow2 x := by
  rw [floorPow2_eq] at hne
  have hle := Nat.log2_self_le (Nat.ne_of_gt h)
  have hlt : x < 2 ^ (x.log2 + 1) := Nat.lt_log2_self
  have hbelow : x - 1 ≠ 0 := by
    rintro hzero
    have hone : x = 1 := by omega
    exact hne (by rw [hone]; rfl)
  -- the highest bit is also that of the number below
  have hlog : (x - 1).log2 = x.log2 := (Nat.log2_eq_iff hbelow).2 ⟨by omega, by omega⟩
  have hbit : (x &&& (x - 1)).testBit x.log2 = true := by
    have hbit' := Nat.testBit_log2 hbelow
    rw [hlog] at hbit'
    rw [Nat.testBit_and, Nat.testBit_log2 (Nat.ne_of_gt h), hbit', Bool.and_self]
  have hge := Nat.ge_two_pow_of_testBit hbit
  have hpos := Nat.two_pow_pos x.log2
  refine ⟨by omega, ?_⟩
  rw [floorPow2_eq, floorPow2_eq, (Nat.log2_eq_iff (by omega)).2 ⟨hge, ?_⟩]
  exact Nat.lt_of_le_of_lt Nat.and_le_left hlt

namespace Word64

/-- The highest bit of a number, by clearing its lowest bits until one is left. -/
def topBit (x : Nat) : Except Fault Nat :=
  if x = 0 then .error .overflow
  else if x &&& (x - 1) ≠ 0 then topBit (x &&& (x - 1)) else .ok x
termination_by x
decreasing_by
  have hle := Nat.and_le_right (n := x) (m := x - 1)
  omega

theorem topBit_eq_ok (h : 0 < x) : topBit x = .ok (floorPow2 x) := by
  induction x using Nat.strong_induction_on with
  | _ x ih =>
    rw [topBit, if_neg (Nat.ne_of_gt h)]
    by_cases hpow : x = floorPow2 x
    · have hzero : x &&& (x - 1) = 0 := by
        rw [hpow, and_floorPow2_sub_one, Nat.mod_self]
      rw [if_neg (not_not.2 hzero), ← hpow]
    · -- the lowest bit is not the highest, so that clearing it changes nothing
      obtain ⟨hne, heq⟩ := floorPow2_and_sub_one h hpow
      have hle := Nat.and_le_right (n := x) (m := x - 1)
      rw [if_pos hne, ih _ (by omega) (Nat.pos_of_ne_zero hne), heq]

/-- A place below a number. -/
def wrap (x i : Nat) : Except Fault Nat := do
  let n ← topBit i
  add (x &&& (← sub n 1)) (← sub i n)

theorem wrap_eq_ok (x : Nat) (h : 0 < i) (hi : i < 2 ^ 64) : wrap x i = .ok (wrapBelow x i) := by
  have hlt := Nat.lt_trans (wrapBelow_lt x h) hi
  rw [wrapBelow, ← and_floorPow2_sub_one] at hlt
  simp only [wrap, topBit_eq_ok h, sub_eq_ok (floorPow2_pos i), sub_eq_ok (floorPow2_le h),
    add_eq_ok hlt, bind, Except.bind]
  rw [wrapBelow, ← and_floorPow2_sub_one]

/-! ## Loop counts -/

/-- All bits of a word but the lowest. -/
def evenMask : Nat := 2 ^ 64 - 2

theorem and_evenMask (h : x < 2 ^ 64) : x &&& evenMask = evenFloor x := by
  have hmod : (x &&& evenMask) % 2 ^ 1 = 0 := by
    rw [Nat.and_mod_two_pow, show evenMask % 2 ^ 1 = 0 by decide, Nat.and_zero]
  have hdiv : (x &&& evenMask) / 2 = x / 2 := by
    rw [Nat.and_div_two, show evenMask / 2 = 2 ^ 63 - 1 by decide,
      Nat.and_two_pow_sub_one_eq_mod, Nat.mod_eq_of_lt (by omega)]
  rw [evenFloor]
  omega

/-- All reads of a lane, before rounding. -/
def reads (readWrite : Bool) (chunk t : Nat) : Except Fault Nat :=
  if readWrite then
    if t ≤ 1 then do
      let all ← if t ≠ 0 then mul chunk 2 else pure chunk
      return (← add all 2) / 3
    else do mul chunk (← sub t 1)
  else if t ≠ 0 then do
    let all ← if t = 1 then add chunk ((← add chunk 1) / 2) else pure chunk
    mul all t
  else pure chunk

/-- The reads of a lane from its own part, before rounding. -/
def ownReads (readWrite : Bool) (all p : Nat) : Except Fault Nat :=
  if readWrite then div all p else .ok 0

/-- The counts for a table of `n` states and `p` lanes. -/
def counts (readWrite : Bool) (n p t : Nat) : Except Fault LoopCounts := do
  let chunk ← div n p
  let all ← reads readWrite chunk t
  let own ← ownReads readWrite all p
  let whole := (← add all 1) &&& evenMask
  let own := (← add own 1) &&& evenMask
  return ⟨chunk &&& evenMask, own, ← sub whole own⟩

variable {n p t chunk : Nat}

/-- A lane of a table that fits the memory reads less than half a word often. -/
theorem reads_lt (readWrite : Bool) (hchunk : chunk ≤ 2 ^ 30) (ht : t < 2 ^ 32) :
    LoopCounts.reads readWrite chunk t < 2 ^ 63 := by
  have hproduct : ∀ m ≤ t, chunk * m < 2 ^ 63 := fun m hm =>
    Nat.lt_of_le_of_lt (Nat.mul_le_mul hchunk (Nat.le_trans hm (Nat.le_of_lt ht))) (by decide)
  match readWrite, t with
  | true, 0 => simp only [LoopCounts.reads, if_true]; omega
  | true, 1 => simp only [LoopCounts.reads, if_true]; omega
  | true, t + 2 => exact hproduct (t + 1) (by omega)
  | false, 0 => simp only [LoopCounts.reads, Bool.false_eq_true, if_false]; omega
  | false, 1 => simp only [LoopCounts.reads, Bool.false_eq_true, if_false]; omega
  | false, t + 2 => exact hproduct (t + 2) (Nat.le_refl _)

theorem reads_eq_ok (readWrite : Bool) (hchunk : chunk ≤ 2 ^ 30) (ht : t < 2 ^ 32) :
    reads readWrite chunk t = .ok (LoopCounts.reads readWrite chunk t) := by
  have hlt := reads_lt readWrite hchunk ht
  match readWrite, t with
  | true, 0 =>
    have hsum : chunk + 2 < 2 ^ 64 := by omega
    simp [reads, LoopCounts.reads, add_eq_ok hsum, bind, Except.bind, pure, Except.pure]
  | true, 1 =>
    have hdouble : chunk * 2 < 2 ^ 64 := by omega
    have hsum : chunk * 2 + 2 < 2 ^ 64 := by omega
    simp [reads, LoopCounts.reads, mul_eq_ok hdouble, add_eq_ok hsum, bind, Except.bind, pure,
      Except.pure, Nat.mul_comm]
  | true, t + 2 =>
    have hproduct : chunk * (t + 1) < 2 ^ 64 := Nat.lt_trans hlt (by decide)
    have hsub := sub_eq_ok (show 1 ≤ t + 2 by omega)
    simp [reads, LoopCounts.reads, hsub, mul_eq_ok hproduct, bind, Except.bind]
  | false, 0 => rfl
  | false, 1 =>
    have hone : chunk + 1 < 2 ^ 64 := by omega
    have hsum : chunk + (chunk + 1) / 2 < 2 ^ 64 := by omega
    have hproduct : (chunk + (chunk + 1) / 2) * 1 < 2 ^ 64 := by omega
    simp [reads, LoopCounts.reads, add_eq_ok hone, add_eq_ok hsum, mul_eq_ok hproduct, bind,
      Except.bind]
  | false, t + 2 =>
    have hproduct : chunk * (t + 2) < 2 ^ 64 := Nat.lt_trans hlt (by decide)
    simp [reads, LoopCounts.reads, mul_eq_ok hproduct]

theorem evenCeil_le_evenCeil (h : a ≤ b) : evenCeil a ≤ evenCeil b :=
  Nat.mul_le_mul_right 2 (Nat.div_le_div_right (Nat.add_le_add_right h 1))

theorem counts_eq_ok (readWrite : Bool) (hn : n ≤ 2 ^ 30) (hp : 0 < p) (ht : t < 2 ^ 32) :
    counts readWrite n p t = .ok (LoopCounts.ofSizes readWrite n p t) := by
  have hchunk : n / p ≤ 2 ^ 30 := Nat.le_trans (Nat.div_le_self n p) hn
  have hall := reads_eq_ok readWrite hchunk ht
  have hlt := reads_lt readWrite hchunk ht
  rw [counts, LoopCounts.ofSizes, div_eq_ok hp]
  generalize LoopCounts.reads readWrite (n / p) t = all at hall hlt ⊢
  -- the reads of the own part are at most all reads, also after rounding
  obtain ⟨own, hown, hle, hceil⟩ : ∃ own, ownReads readWrite all p = .ok own ∧ own ≤ all ∧
      (if readWrite then evenCeil (all / p) else 0) = evenCeil own := by
    cases readWrite with
    | true => exact ⟨all / p, div_eq_ok hp, Nat.div_le_self all p, rfl⟩
    | false => exact ⟨0, rfl, Nat.zero_le all, rfl⟩
  have hwhole : all + 1 < 2 ^ 64 := by omega
  have hpart : own + 1 < 2 ^ 64 := by omega
  have hmask : (n / p) &&& evenMask = evenFloor (n / p) := and_evenMask (by omega)
  have hmaskWhole : (all + 1) &&& evenMask = evenCeil all := and_evenMask hwhole
  have hmaskPart : (own + 1) &&& evenMask = evenCeil own := and_evenMask hpart
  simp only [hall, hown, hceil, add_eq_ok hwhole, add_eq_ok hpart, hmask, hmaskWhole, hmaskPart,
    sub_eq_ok (evenCeil_le_evenCeil hle), bind, Except.bind, pure, Except.pure]

/-! ## Sizes -/

/-- The bytes of a lane, the words of a state and the words of the table. -/
structure Sizes where
  lane : Nat
  state : Nat
  table : Nat
  deriving DecidableEq, Repr

/-- The sizes of the memory that a step works in. -/
def sizes (q : Params) : Except Fault Sizes := do
  let _ ← mul q.r q.p
  let lane ← mul 128 q.r
  let table ← mul q.n lane
  let _ ← mul lane q.p
  let _ ← mul 64 q.r
  let _ ← mul q.p tableWords
  return ⟨lane, ← mul 32 q.r, table / 4⟩

/-- Whether the lanes and the table are sized for `n` states and `p` lanes, in words. -/
structure Sizes.Hold (z : Sizes) (n p : Nat) : Prop where
  lane : 128 ≤ z.lane
  lanes : z.lane * p < 2 ^ 64
  state : 0 < z.state
  table : z.table = z.state * n
  words : z.table < 2 ^ 64

variable {q : Params}

theorem sizes_eq_ok (h : q.stepChecked = .ok ()) :
    ∃ z, sizes q = .ok z ∧ z.Hold q.n q.p := by
  obtain ⟨hsizes, htable, hlanes⟩ := stepChecked_eq_ok_iff.1 h
  rw [Bool.and_eq_true, sizesOk_iff] at hsizes
  obtain ⟨-, -, -, hr, hp, hrp, -⟩ := hsizes
  rw [Params.maxMemory] at htable hlanes
  -- up to a constant no product is more than the bytes of the table or of all lanes
  have hlane : 128 * q.r ≤ 128 * q.r * q.p := Nat.le_mul_of_pos_right _ hp
  have hcount : q.p ≤ 128 * q.r * q.p := Nat.le_mul_of_pos_left _ (by omega)
  have hboxes : q.p * tableWords < 2 ^ 64 := by
    rw [show tableWords = 3072 from rfl]
    omega
  have hbytes : q.n * (128 * q.r) = 4 * (32 * q.r * q.n) := by ring
  have hbytes' : 128 * q.r * q.n = 4 * (32 * q.r * q.n) := by ring
  refine ⟨⟨128 * q.r, 32 * q.r, 32 * q.r * q.n⟩, ?_, ?_⟩
  · simp only [sizes, mul_eq_ok (show q.r * q.p < 2 ^ 64 by omega),
      mul_eq_ok (show 128 * q.r < 2 ^ 64 by omega),
      mul_eq_ok (show q.n * (128 * q.r) < 2 ^ 64 by omega),
      mul_eq_ok (show 128 * q.r * q.p < 2 ^ 64 by omega),
      mul_eq_ok (show 64 * q.r < 2 ^ 64 by omega), mul_eq_ok hboxes,
      mul_eq_ok (show 32 * q.r < 2 ^ 64 by omega), bind, Except.bind, pure, Except.pure]
    rw [hbytes, Nat.mul_div_cancel_left _ (by decide)]
  · exact {
      lane := Nat.mul_le_mul_left 128 hr
      lanes := by simp only; omega
      state := Nat.mul_pos (by decide) hr
      table := rfl
      words := by simp only; omega }

/-- What is known of the table and of the lanes of a step that is not refused. -/
structure Admissible (q : Params) : Prop where
  two : 2 ≤ q.n
  power : q.n = floorPow2 q.n
  bound : q.n ≤ 2 ^ 30
  lanes : 0 < q.p
  shared : q.mode.isReadWrite = true → 1 < q.n / q.p

theorem admissible_of_stepChecked (h : q.stepChecked = .ok ()) : Admissible q := by
  obtain ⟨hsizes, htable, -⟩ := stepChecked_eq_ok_iff.1 h
  rw [Bool.and_eq_true, sizesOk_iff] at hsizes
  obtain ⟨-, hn, hpower, hr, hp, -, hshared⟩ := hsizes
  rw [Params.maxMemory] at htable
  have hle : q.n ≤ 128 * q.r * q.n := Nat.le_mul_of_pos_left _ (by omega)
  exact ⟨hn, hpower, by omega, hp, hshared⟩

end Word64

end Yescrypt

end PassHash
