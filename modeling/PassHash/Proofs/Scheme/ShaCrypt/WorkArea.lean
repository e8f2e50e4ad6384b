import Mathlib.Data.Nat.Bits
import PassHash.Proofs.Bytes.Repetition
import PassHash.Scheme.ShaCrypt

/-!
# The Digest of SHA-crypt in One Work Area

The published construction mixes a phrase and a salt with two sequences, each of which is a digest
repeated without end and cut to the length of the phrase or of the salt. A work area of three
digests is enough for it: the first region holds the digest so far and is overwritten by every
round, and the other two hold the digests that the sequences repeat. The sequences themselves are
never written out; whole digests are fed to the hash function as long as they fit into what is left
of the length.

## Contents

- `ShaCrypt.Standard`: the construction, with both sequences as they are published
- `ShaCrypt.WorkArea`: the same in a work area
- `ShaCrypt.WorkArea.Holds`: what the three regions hold

## Main statements

- `ShaCrypt.WorkArea.holds_prepare`, `ShaCrypt.WorkArea.holds_round`: what is in the regions ahead
  of the first round and after one more
- `ShaCrypt.digest_published`: every way to the digest is the published one
-/

namespace PassHash

namespace ShaCrypt

/-! ## The published construction -/

namespace Standard

/-- The first bytes of a block that is repeated without end. -/
def cycle (block : Bytes) (len : Nat) : Bytes := (List.range len).map (Bytes.repeated block)

/-- For every bit of a number, from the lowest to the highest that is set, one of two byte
    strings. -/
def byBits (set clear : Bytes) (n : Nat) : Bytes :=
  n.bits.flatMap fun bit => if bit then set else clear

variable (h : HashFunction) (phrase salt : Bytes)

/-- The digest that the first one is made with. -/
def alternate : Bytes := h.digest (phrase ++ salt ++ phrase)

/-- The digest ahead of the first round. -/
def opening : Bytes :=
  h.digest (phrase ++ salt ++ cycle (alternate h phrase salt) phrase.length ++
    byBits (alternate h phrase salt) phrase phrase.length)

/-- The digest that the sequence of the phrase repeats. -/
def phraseBlock : Bytes := h.digest (List.replicate phrase.length phrase).flatten

/-- The digest that the sequence of the salt repeats. -/
def saltBlock : Bytes :=
  h.digest (List.replicate (16 + ((opening h phrase salt).getD 0 0).toNat) salt).flatten

/-- What round `i` hashes, from the sequences of the phrase and of the salt and the digest so
    far. -/
def mixture (p s a : Bytes) (i : Nat) : Bytes :=
  (if i % 2 = 1 then p else a) ++ (if i % 3 ≠ 0 then s else []) ++
    (if i % 7 ≠ 0 then p else []) ++ (if i % 2 = 1 then a else p)

/-- The digest after all rounds. -/
def digest (rounds : Nat) : Bytes :=
  let p := cycle (phraseBlock h phrase) phrase.length
  let s := cycle (saltBlock h phrase salt) salt.length
  (List.range rounds).foldl (fun a i => h.digest (mixture p s a i)) (opening h phrase salt)

end Standard

/-! ## Feeding -/

/-- A message with a block fed to it again and again while as much as the block is left to feed, and
    then the start of the block. -/
def feedWhile (block : Bytes) (left : Nat) (message : Bytes) : Bytes :=
  if 0 < block.length ∧ block.length ≤ left then
    feedWhile block (left - block.length) (message ++ block)
  else message ++ block.take left
termination_by left

/-- The same with a block fed only while more than it is left, so that what comes last may be a
    whole block. -/
def feedAbove (block : Bytes) (left : Nat) (message : Bytes) : Bytes :=
  if 0 < block.length ∧ block.length < left then
    feedAbove block (left - block.length) (message ++ block)
  else message ++ block.take left
termination_by left

/-- A message with one of two byte strings fed to it for every bit of a number that is shifted
    down. -/
def feedBits (set clear : Bytes) (n : Nat) (message : Bytes) : Bytes :=
  if n = 0 then message
  else feedBits set clear (n >>> 1) (message ++ if n &&& 1 ≠ 0 then set else clear)
termination_by n
decreasing_by
  rw [Nat.shiftRight_eq_div_pow]
  omega

/-- A message with a byte string fed to it a number of times. -/
def feedTimes (count : Nat) (s message : Bytes) : Bytes :=
  Nat.fold count (fun _ _ message => message ++ s) message

open Standard

variable {block set clear : Bytes}

theorem cycle_of_le {len : Nat} (h : len ≤ block.length) : cycle block len = block.take len :=
  Bytes.map_repeated_of_le h

/-- A repeated block starts with the block, and is repeated from there on. -/
theorem cycle_of_length_le {len : Nat} (h : block.length ≤ len) :
    cycle block len = block ++ cycle block (len - block.length) := by
  obtain ⟨rest, rfl⟩ := Nat.exists_eq_add_of_le h
  have hmap : (List.range rest).map (Bytes.repeated block ∘ (block.length + ·)) =
      (List.range rest).map (Bytes.repeated block) :=
    List.map_congr_left fun i _ => Bytes.repeated_length_add block i
  rw [Nat.add_sub_cancel_left, cycle, List.range_add, List.map_append, List.map_map, hmap, ← cycle,
    cycle_of_le (Nat.le_refl _), List.take_length]
  rfl

theorem feedWhile_eq (hblock : 0 < block.length) (left : Nat) (message : Bytes) :
    feedWhile block left message = message ++ cycle block left := by
  -- with less than a block left, the sequence goes on with the start of the block
  fun_induction feedWhile block left message with
  | case1 left message hfits ih => rw [ih, List.append_assoc, ← cycle_of_length_le hfits.2]
  | case2 left message hless =>
    have hle : left ≤ block.length := by omega
    rw [cycle_of_le hle]

theorem feedAbove_eq (hblock : 0 < block.length) (left : Nat) (message : Bytes) :
    feedAbove block left message = message ++ cycle block left := by
  -- the start that comes last may be the whole block
  fun_induction feedAbove block left message with
  | case1 left message hfits ih =>
    rw [ih, List.append_assoc, ← cycle_of_length_le (Nat.le_of_lt hfits.2)]
  | case2 left message hless =>
    have hle : left ≤ block.length := by omega
    rw [cycle_of_le hle]

theorem byBits_of_ne_zero {n : Nat} (hn : n ≠ 0) :
    byBits set clear n = (if n % 2 = 1 then set else clear) ++ byBits set clear (n / 2) := by
  obtain ⟨m, rfl | rfl⟩ : ∃ m, n = 2 * m ∨ n = 2 * m + 1 := ⟨n / 2, by omega⟩
  · have hm : m ≠ 0 := by omega
    have hhalf : 2 * m / 2 = m := by omega
    rw [byBits, Nat.bit0_bits m hm, hhalf, if_neg (by omega)]
    rfl
  · have hhalf : (2 * m + 1) / 2 = m := by omega
    rw [byBits, Nat.bit1_bits, hhalf, if_pos (by omega)]
    rfl

theorem feedBits_eq (n : Nat) (message : Bytes) :
    feedBits set clear n message = message ++ byBits set clear n := by
  induction n using Nat.strongRecOn generalizing message with
  | ind n ih =>
    rw [feedBits]
    by_cases hn : n = 0
    · rw [if_pos hn, hn, byBits, Nat.zero_bits, List.flatMap_nil, List.append_nil]
    · have hhalf : n >>> 1 = n / 2 := Nat.shiftRight_eq_div_pow n 1
      have hbit : n &&& 1 ≠ 0 ↔ n % 2 = 1 := by
        rw [Nat.and_one_is_mod]
        omega
      rw [if_neg hn, hhalf, ih (n / 2) (by omega), byBits_of_ne_zero hn, List.append_assoc]
      simp only [hbit]

theorem feedTimes_eq (count : Nat) (s message : Bytes) :
    feedTimes count s message = message ++ (List.replicate count s).flatten := by
  induction count with
  | zero => simp [feedTimes]
  | succ count ih =>
    rw [feedTimes, Nat.fold_succ, ← feedTimes, ih, List.replicate_succ', List.flatten_concat,
      List.append_assoc]

/-! ## Work areas -/

namespace WorkArea

/-- The bytes of a region, where each region is as long as a digest. -/
def region (size k : Nat) (work : Bytes) : Bytes := (work.drop (size * k)).take size

/-- The area with a digest written over a region. -/
def write (size k : Nat) (digest work : Bytes) : Bytes :=
  work.take (size * k) ++ digest ++ work.drop (size * k + digest.length)

section

variable (h : HashFunction) (phrase salt : Bytes)

/-- The area ahead of the first round, whatever it held. The first region holds the alternate digest
    until that has been fed, and the first byte of what comes after it decides about the third. -/
def prepare (work : Bytes) : Bytes :=
  let n := h.digestSize
  let work := write n 0 (h.digest (phrase ++ salt ++ phrase)) work
  let message := feedAbove (region n 0 work) phrase.length (phrase ++ salt)
  let message := feedBits (region n 0 work) phrase phrase.length message
  let work := write n 0 (h.digest message) work
  let work := write n 1 (h.digest (feedTimes phrase.length phrase [])) work
  let first := (region n 0 work).getD 0 0
  write n 2 (h.digest (feedTimes (16 + first.toNat) salt [])) work

/-- What is fed to the hash function in round `i`. -/
def message (i : Nat) (work : Bytes) : Bytes :=
  let n := h.digestSize
  let message :=
    if i &&& 1 ≠ 0 then feedWhile (region n 1 work) phrase.length [] else region n 0 work
  let message :=
    if i % 3 ≠ 0 then feedWhile (region n 2 work) salt.length message else message
  let message :=
    if i % 7 ≠ 0 then feedWhile (region n 1 work) phrase.length message else message
  if i &&& 1 ≠ 0 then message ++ region n 0 work
  else feedWhile (region n 1 work) phrase.length message

/-- The area after round `i`. -/
def round (i : Nat) (work : Bytes) : Bytes :=
  write h.digestSize 0 (h.digest (message h phrase salt i work)) work

/-- The area after all rounds. -/
def run (rounds : Nat) (work : Bytes) : Bytes :=
  Nat.fold rounds (fun i _ work => round h phrase salt i work) (prepare h phrase salt work)

end

/-! ### Regions -/

/-- An area that consists of three regions of a size. -/
structure Holds (size : Nat) (work a p s : Bytes) : Prop where
  eq : work = a ++ p ++ s
  length_a : a.length = size
  length_p : p.length = size
  length_s : s.length = size

variable {size : Nat} {work a p s d : Bytes}

theorem exists_holds (hw : work.length = 3 * size) : ∃ a p s, Holds size work a p s := by
  refine ⟨work.take size, (work.drop size).take size, work.drop (size + size), ?_, ?_, ?_, ?_⟩
  · rw [← List.drop_drop, List.append_assoc, List.take_append_drop, List.take_append_drop]
  · rw [List.length_take]
    omega
  · rw [List.length_take, List.length_drop]
    omega
  · rw [List.length_drop]
    omega

namespace Holds

theorem region_zero (hw : Holds size work a p s) : region size 0 work = a := by
  rw [region, hw.eq, Nat.mul_zero, List.drop_zero, List.append_assoc, List.take_left' hw.length_a]

theorem region_one (hw : Holds size work a p s) : region size 1 work = p := by
  rw [region, hw.eq, Nat.mul_one, List.append_assoc, List.drop_left' hw.length_a,
    List.take_left' hw.length_p]

theorem region_two (hw : Holds size work a p s) : region size 2 work = s := by
  have hfront : (a ++ p).length = size * 2 := by
    rw [List.length_append, hw.length_a, hw.length_p, Nat.mul_two]
  rw [region, hw.eq, List.drop_left' hfront, ← hw.length_s, List.take_length]

/-- What is written over a region leaves the others as they are. -/
theorem write_zero (hw : Holds size work a p s) (hd : d.length = size) :
    Holds size (write size 0 d work) d p s := by
  refine ⟨?_, hd, hw.length_p, hw.length_s⟩
  rw [write, hw.eq, hd, Nat.mul_zero, Nat.zero_add, List.take_zero, List.append_assoc a,
    List.drop_left' hw.length_a, List.nil_append, List.append_assoc]

theorem write_one (hw : Holds size work a p s) (hd : d.length = size) :
    Holds size (write size 1 d work) a d s := by
  have hfront : (a ++ p).length = size * 1 + size := by
    rw [List.length_append, hw.length_a, hw.length_p, Nat.mul_one]
  refine ⟨?_, hw.length_a, hd, hw.length_s⟩
  rw [write, hw.eq, hd, List.drop_left' hfront, Nat.mul_one, List.append_assoc a,
    List.take_left' hw.length_a]

theorem write_two (hw : Holds size work a p s) (hd : d.length = size) :
    Holds size (write size 2 d work) a p d := by
  have hfront : (a ++ p).length = size * 2 := by
    rw [List.length_append, hw.length_a, hw.length_p, Nat.mul_two]
  have hall : (a ++ p ++ s).length = size * 2 + size := by
    rw [List.length_append, hfront, hw.length_s]
  refine ⟨?_, hw.length_a, hw.length_p, hd⟩
  rw [write, hw.eq, hd, List.take_left' hfront, ← hall, List.drop_length, List.append_nil]

end Holds

/-! ### Rounds -/

variable {h : HashFunction} {phrase salt : Bytes}

/-- Ahead of the first round the regions hold the digest to start from and the two that are
    repeated. -/
theorem holds_prepare (hn : 0 < h.digestSize) (hw : work.length = 3 * h.digestSize) :
    Holds h.digestSize (prepare h phrase salt work) (opening h phrase salt) (phraseBlock h phrase)
      (saltBlock h phrase salt) := by
  -- the regions are told apart by their length alone, not by what they hold
  obtain ⟨a, p, s, hstart⟩ := exists_holds hw
  have hinner := hstart.write_zero (h.length_digest (phrase ++ salt ++ phrase))
  have hpos : 0 < (h.digest (phrase ++ salt ++ phrase)).length := by
    rw [h.length_digest]
    exact hn
  have hopening : h.digest (feedBits (h.digest (phrase ++ salt ++ phrase)) phrase phrase.length
      (feedAbove (h.digest (phrase ++ salt ++ phrase)) phrase.length (phrase ++ salt))) =
        opening h phrase salt := by
    rw [feedBits_eq, feedAbove_eq hpos, opening, alternate]
  have hfirst := hinner.write_zero (h.length_digest (phrase ++ salt ++
    cycle (alternate h phrase salt) phrase.length ++
      byBits (alternate h phrase salt) phrase phrase.length))
  have hsecond := hfirst.write_one (h.length_digest (List.replicate phrase.length phrase).flatten)
  -- the third region depends on the first byte of the first
  rw [prepare]
  simp only [hinner.region_zero, hopening, feedTimes_eq, List.nil_append]
  rw [← opening] at hsecond hfirst
  rw [hsecond.region_zero]
  exact hsecond.write_two (h.length_digest _)

theorem ite_append_eq (c : Prop) [Decidable c] (m x : Bytes) :
    (if c then m ++ x else m) = m ++ if c then x else [] := by
  split
  · rfl
  · rw [List.append_nil]

/-- What a round feeds from the regions is what it should hash. -/
theorem message_eq (hn : 0 < h.digestSize) (i : Nat) (hw : Holds h.digestSize work a p s) :
    message h phrase salt i work =
      mixture (cycle p phrase.length) (cycle s salt.length) a i := by
  have hp : 0 < p.length := by
    rw [hw.length_p]
    exact hn
  have hs : 0 < s.length := by
    rw [hw.length_s]
    exact hn
  have hodd : i &&& 1 ≠ 0 ↔ i % 2 = 1 := by
    rw [Nat.and_one_is_mod]
    omega
  simp only [message, mixture, hw.region_zero, hw.region_one, hw.region_two, feedWhile_eq hp,
    feedWhile_eq hs, hodd, ite_append_eq, List.nil_append]
  -- the digest so far and the sequence of the phrase stand at opposite ends
  by_cases hi : i % 2 = 1
  · simp only [if_pos hi]
  · simp only [if_neg hi]

/-- A round puts the next digest in place of the one so far. -/
theorem holds_round (hn : 0 < h.digestSize) (i : Nat) (hw : Holds h.digestSize work a p s) :
    Holds h.digestSize (round h phrase salt i work)
      (h.digest (mixture (cycle p phrase.length) (cycle s salt.length) a i)) p s := by
  rw [round, message_eq hn i hw]
  exact hw.write_zero (h.length_digest _)

/-- After all rounds the digest is in the first region, and the other two are as they were. -/
theorem holds_run (hn : 0 < h.digestSize) (phrase salt : Bytes)
    (hw : work.length = 3 * h.digestSize) (rounds : Nat) :
    Holds h.digestSize (run h phrase salt rounds work) (Standard.digest h phrase salt rounds)
      (phraseBlock h phrase) (saltBlock h phrase salt) := by
  induction rounds with
  | zero => exact holds_prepare hn hw
  | succ rounds ih =>
    rw [run, Nat.fold_succ, Standard.digest, List.range_succ, List.foldl_append]
    exact holds_round hn rounds ih

end WorkArea

/-! ## The running digest -/

theorem recycle_eq_cycle (hblock : 0 < block.length) (len : Nat) :
    Bytes.recycle block len = cycle block len :=
  Bytes.recycle_eq_map hblock len

theorem ofBits_eq_byBits (n : Nat) : Mixture.ofBits set clear n = byBits set clear n := by
  induction n using Nat.strongRecOn with
  | ind n ih =>
    rw [Mixture.ofBits]
    by_cases hn : n = 0
    · rw [if_pos hn, hn, byBits, Nat.zero_bits, List.flatMap_nil]
    · rw [if_neg hn, ih (n / 2) (by omega), byBits_of_ne_zero hn]

theorem ofRound_eq_mixture (p s a : Bytes) (i : Nat) :
    Mixture.ofRound p s a i = mixture p s a i := by
  rw [Mixture.ofRound, mixture]
  simp only [ite_not]

theorem stretch_eq_foldl (hash : Bytes → Bytes) (p s a : Bytes) (rounds : Nat) :
    Mixture.stretch hash p s rounds a =
      (List.range rounds).foldl (fun a i => hash (mixture p s a i)) a := by
  induction rounds with
  | zero => rfl
  | succ rounds ih =>
    rw [Mixture.stretch, Nat.fold_succ, ← Mixture.stretch, ih, List.range_succ, List.foldl_append,
      ofRound_eq_mixture]
    rfl

variable {h : HashFunction} {phrase salt work : Bytes}

theorem digest_eq_standard (hn : 0 < h.digestSize) (rounds : Nat) :
    digest h phrase salt rounds = Standard.digest h phrase salt rounds := by
  have hpos : ∀ m, 0 < (h.digest m).length := fun m => by
    rw [h.length_digest]
    exact hn
  have hstart : start h phrase salt = opening h phrase salt := by
    rw [start, recycle_eq_cycle (hpos _), ofBits_eq_byBits]
    rfl
  rw [digest, stretch_eq_foldl, recycle_eq_cycle (hpos _), recycle_eq_cycle (hpos _), hstart]
  rfl

/-- For every hash function whose digests are not empty, the first region of a work area holds the
    published digest of a phrase after any number of rounds, whatever the area held before, and so
    does the digest that is written into hashes. -/
theorem digest_published (hn : 0 < h.digestSize) (phrase salt : Bytes) (rounds : Nat)
    (hw : work.length = 3 * h.digestSize) :
    (WorkArea.run h phrase salt rounds work).take h.digestSize =
        Standard.digest h phrase salt rounds ∧
      digest h phrase salt rounds = Standard.digest h phrase salt rounds := by
  have hholds := WorkArea.holds_run hn phrase salt hw rounds
  refine ⟨?_, digest_eq_standard hn rounds⟩
  rw [← hholds.region_zero, WorkArea.region, Nat.mul_zero, List.drop_zero]

/-- The default rounds of SHA-512 for a phrase and a salt that are shorter than a digest, in an area
    of zeros. -/
theorem digest_published_sha512 :
    (WorkArea.run Sha512.hash (Bytes.ascii "Hello world!") (Bytes.ascii "saltstring") defaultRounds
        (List.replicate 192 0)).take 64 =
        Standard.digest Sha512.hash (Bytes.ascii "Hello world!") (Bytes.ascii "saltstring")
          defaultRounds ∧
      digest Sha512.hash (Bytes.ascii "Hello world!") (Bytes.ascii "saltstring") defaultRounds =
        Standard.digest Sha512.hash (Bytes.ascii "Hello world!") (Bytes.ascii "saltstring")
          defaultRounds :=
  digest_published (h := Sha512.hash) (by decide) (Bytes.ascii "Hello world!")
    (Bytes.ascii "saltstring") defaultRounds List.length_replicate

end ShaCrypt

end PassHash
