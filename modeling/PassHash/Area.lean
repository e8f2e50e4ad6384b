import PassHash.Bytes
import PassHash.Failure

/-!
# Output and Scratch Areas

A caller owns the memory that a hash is written to and worked out in. A scheme sees of it only how
much there is (`Room`), and hands back one finished text; storing that text in the output area
(`Area.commit`) is a single step that either fits or changes nothing.

## Contents

- `Room`: bytes of output and of scratch, with the checks a scheme makes against them
- `Area.store`, `Area.commit`, `Area.settle`: a finished text in an output area
- `Scratch`: working memory that is zeroed when claimed and wiped when released

## Main statements

- `Area.length_settle`: an area keeps its size, whatever the outcome
- `Area.settle_error`: a refused text leaves the area as it was
- `Area.beforeNul_store`: a stored text is read back
- `Scratch.claim_eq_ok_iff`: when memory can be claimed, and what the area is then
- `Scratch.region_claim`: claimed memory is zero
- `Scratch.region_write`: written bytes are read back
- `Scratch.release_eq_iff`: a released area shows its size only
-/

namespace PassHash

/-! ## Room -/

/-- The space a hashing call may use: bytes of output, terminator included, and of scratch. -/
structure Room where
  output : Nat
  scratch : Nat
  deriving DecidableEq, Repr

namespace Room

/-- Refuses when fewer bytes are available than needed. -/
def need (available needed : Nat) : Except Failure Unit :=
  if needed ≤ available then .ok () else .error .range

/-- The finished text, if it fits with its terminator. -/
def fit (available : Nat) (text : Bytes) : Except Failure Bytes := do
  need available (text.length + 1)
  pure text

theorem need_eq_ok_iff {available needed : Nat} :
    need available needed = .ok () ↔ needed ≤ available := by
  by_cases h : needed ≤ available <;> simp [need, h]

theorem fit_eq_ok_iff {available : Nat} {text text' : Bytes} :
    fit available text = .ok text' ↔ text.length + 1 ≤ available ∧ text = text' := by
  by_cases h : text.length + 1 ≤ available <;>
    simp [fit, need, h, bind, Except.bind, pure, Except.pure]

end Room

/-! ## Output areas -/

namespace Area

/-- A text and its terminator at the start of an area; later bytes stay. -/
def store (area text : Bytes) : Bytes := text ++ 0 :: area.drop (text.length + 1)

/-- The area with a text stored in it, if the text fits with its terminator. -/
def commit (area text : Bytes) : Except Failure Bytes := do
  Room.need area.length (text.length + 1)
  pure (store area text)

/-- The outcome of storing a text that may have been refused: the text or the reason, and the area
    afterwards. -/
def settle (area : Bytes) (text? : Except Failure Bytes) : Except Failure Bytes × Bytes :=
  match text? with
  | .error e => (.error e, area)
  | .ok text =>
    match commit area text with
    | .error e => (.error e, area)
    | .ok stored => (.ok text, stored)

theorem length_store {area text : Bytes} (h : text.length + 1 ≤ area.length) :
    (store area text).length = area.length := by
  simp [store]
  omega

theorem commit_eq_ok_iff {area text stored : Bytes} :
    commit area text = .ok stored ↔ text.length + 1 ≤ area.length ∧ store area text = stored := by
  by_cases h : text.length + 1 ≤ area.length <;>
    simp [commit, Room.need, h, bind, Except.bind, pure, Except.pure]

theorem length_settle (area : Bytes) (text? : Except Failure Bytes) :
    (settle area text?).2.length = area.length := by
  unfold settle
  split
  · rfl
  · split
    · rfl
    · next h =>
      obtain ⟨hl, rfl⟩ := commit_eq_ok_iff.1 h
      exact length_store hl

theorem settle_error {area : Bytes} {text? : Except Failure Bytes} {e : Failure}
    (h : (settle area text?).1 = .error e) : (settle area text?).2 = area := by
  unfold settle at h ⊢
  split at h
  · rfl
  · next t =>
    cases hc : commit area t with
    | error e' => rfl
    | ok stored => simp [hc] at h

theorem beforeNul_store {area text : Bytes} (h : 0 ∉ text) :
    Bytes.beforeNul (store area text) = text := by
  rw [store, Bytes.beforeNul, List.takeWhile_append_of_pos, List.takeWhile_cons_of_neg (by simp),
    List.append_nil]
  intro c hc
  simpa using fun h0 : c = 0 => h (h0 ▸ hc)

end Area

/-! ## Scratch areas -/

/-- Working memory for one hashing call. -/
structure Scratch where
  bytes : Bytes

namespace Scratch

/-- How many bytes there are. -/
def capacity (s : Scratch) : Nat := s.bytes.length

/-- The area with its first `n` bytes zeroed for use, if there are as many. -/
def claim (s : Scratch) (n : Nat) : Except Failure Scratch :=
  if n ≤ s.capacity then .ok ⟨List.replicate n 0 ++ s.bytes.drop n⟩ else .error .range

/-- The first `n` bytes. -/
def region (s : Scratch) (n : Nat) : Bytes := s.bytes.take n

/-- The area with other bytes at its start. -/
def write (s : Scratch) (data : Bytes) : Scratch :=
  ⟨data.take s.capacity ++ s.bytes.drop data.length⟩

/-- The area after use: every byte is zero. -/
def release (s : Scratch) : Scratch := ⟨List.replicate s.capacity 0⟩

variable {s s' : Scratch} {n : Nat} {data : Bytes}

/-- Claiming makes the check that a scheme makes against its room. -/
theorem claim_eq (s : Scratch) (n : Nat) : s.claim n = (Room.need s.capacity n).map
    fun _ => ⟨List.replicate n 0 ++ s.bytes.drop n⟩ := by
  by_cases h : n ≤ s.capacity <;> simp [claim, Room.need, h, Except.map]

theorem claim_eq_ok_iff : s.claim n = .ok s' ↔
    n ≤ s.capacity ∧ ⟨List.replicate n 0 ++ s.bytes.drop n⟩ = s' := by
  by_cases h : n ≤ s.capacity <;> simp [claim, h]

theorem capacity_claim (h : s.claim n = .ok s') : s'.capacity = s.capacity := by
  obtain ⟨hn, rfl⟩ := claim_eq_ok_iff.1 h
  rw [capacity] at hn
  simp only [capacity, List.length_append, List.length_replicate, List.length_drop]
  omega

/-- Claimed memory is zero, whatever it held before. -/
theorem region_claim (h : s.claim n = .ok s') : s'.region n = List.replicate n 0 := by
  obtain ⟨-, rfl⟩ := claim_eq_ok_iff.1 h
  exact List.take_left' List.length_replicate

/-- What lies behind claimed memory stays. -/
theorem drop_claim (h : s.claim n = .ok s') : s'.bytes.drop n = s.bytes.drop n := by
  obtain ⟨-, rfl⟩ := claim_eq_ok_iff.1 h
  exact List.drop_left' List.length_replicate

theorem capacity_write (s : Scratch) (data : Bytes) : (s.write data).capacity = s.capacity := by
  simp only [write, capacity, List.length_append, List.length_take, List.length_drop]
  omega

theorem region_write (h : data.length ≤ s.capacity) :
    (s.write data).region data.length = data := by
  rw [region, write, List.take_of_length_le h, List.take_left' rfl]

theorem capacity_release (s : Scratch) : s.release.capacity = s.capacity :=
  List.length_replicate

/-- A released area shows the size of an area, and nothing else of it. -/
theorem release_eq_iff : s.release = s'.release ↔ s.capacity = s'.capacity := by
  constructor
  · intro h
    rw [← s.capacity_release, h, capacity_release]
  · intro h
    rw [release, release, h]

end Scratch

end PassHash
