import PassHash.Proofs.Base64.HighFirst
import PassHash.Proofs.Base64.LowFirst
import PassHash.Proofs.Checks
import PassHash.Proofs.Layout
import PassHash.Proofs.Salting
import PassHash.Scheme.Descrypt

/-!
# Settings of Traditional DES and Bigcrypt

Only two characters are read from a setting. How long it is decides between one block and chained
blocks for a long phrase, and a hash is long exactly if its setting was, so it makes the same
decision.

## Main statements

- `Descrypt.hash_eq_ok_iff`: when there is a hash, and which
- `Descrypt.hash_demands`, `Descrypt.generate_demands`: more room makes no difference, and too
  little is refused
- `Descrypt.layout`, `Descrypt.layout_describes`: the layout of hashes
- `Descrypt.sizing_hash`: a hash decides between the schemes as its setting did
- `Descrypt.generate_eq_ok`: what a fresh setting consists of
- `Descrypt.usable_of_generate`: fresh settings are fit for use
- `Descrypt.salting_describes`: how fresh settings are salted
-/

namespace PassHash

namespace Descrypt

open Base64

variable {room : Room} {phrase setting h : Bytes} {salt : Nat}

/-! ## Digests -/

theorem length_encoded (ctx : Des.Context) (count : Nat) : (encoded ctx count).length = 11 := by
  rw [encoded, length_encodeHigh, Des.Block.length_toBytes]

theorem isCryptChar_of_mem_encoded {ctx : Des.Context} {count : Nat} {c : UInt8}
    (hc : c ∈ encoded ctx count) : Field.isCryptChar c = true :=
  has_of_mem_encodeHigh hc

theorem length_block (salt : Nat) (phrase : Bytes) : (block salt phrase).length = 11 :=
  length_encoded ..

theorem isCryptChar_of_mem_blocks {n : Nat} {c : UInt8} (hc : c ∈ blocks n salt phrase) :
    Field.isCryptChar c = true := by
  -- block after block, each under a salt that comes from the one before
  induction n generalizing salt phrase with
  | zero => simp [blocks] at hc
  | succ n ih =>
    rw [blocks] at hc
    split at hc
    · exact isCryptChar_of_mem_encoded hc
    · rcases List.mem_append.1 hc with hc | hc
      · exact isCryptChar_of_mem_encoded hc
      · exact ih hc

theorem length_blocks_le (n salt : Nat) (phrase : Bytes) :
    (blocks n salt phrase).length ≤ 11 * n := by
  induction n generalizing salt phrase with
  | zero => simp [blocks]
  | succ n ih =>
    rw [blocks]
    split
    · rw [length_block]
      omega
    · have := ih ((salt? (block salt phrase)).getD 0) (phrase.drop 8)
      rw [List.length_append, length_block]
      omega

theorem le_length_blocks (n salt : Nat) (phrase : Bytes) :
    11 ≤ (blocks (n + 1) salt phrase).length := by
  rw [blocks]
  split
  · rw [length_block]
  · rw [List.length_append, length_block]
    omega

/-- More than eight bytes of a phrase make a second block. -/
theorem le_length_blocks_of_lt {n : Nat} (salt : Nat) (h : blockLength < phrase.length) :
    22 ≤ (blocks (n + 2) salt phrase).length := by
  rw [blocks]
  split
  · next hdrop =>
    rw [List.drop_eq_nil_iff] at hdrop
    exact absurd hdrop (Nat.not_le.2 h)
  · have hrest := le_length_blocks n ((salt? (block salt phrase)).getD 0) (phrase.drop 8)
    rw [List.length_append, length_block]
    omega

/-! ## Reading -/

theorem salt?_eq_some (hs : salt? setting = some salt) :
    salt < 64 ^ 2 ∧ digits 2 salt <+: setting := by
  match setting, hs with
  | c :: d :: rest, hs =>
    have hdigits : digits 2 salt = [c, d] := digits_of_number? (s := [c, d]) hs
    exact ⟨number?_lt (s := [c, d]) hs, hdigits ▸ ⟨rest, rfl⟩⟩

theorem salt?_digits_append (hs : salt < 64 ^ 2) (rest : Bytes) :
    salt? (digits 2 salt ++ rest) = some salt := by
  have hnumber := number?_digits_of_lt hs
  exact hnumber

/-! ## Hashing -/

/-- Whether a phrase is cut to a single block. -/
def isCut (phrase setting : Nat) : Bool := blockLength < phrase && setting ≤ hashLength

/-- The digest of a phrase under a salt, cut or chained. -/
def digestText (cut : Bool) (salt : Nat) (phrase : Bytes) : Bytes :=
  if cut then block salt phrase else blocks maxBlocks salt phrase

/-- The bytes that a hash may take, its terminator included. -/
def outputSize (cut : Bool) : Nat := if cut then hashLength + 1 else 2 + 11 * maxBlocks + 1

theorem hash_eq_ok_iff : hash room phrase setting = .ok h ↔
    outputSize (isCut phrase.length setting.length) ≤ room.output ∧
      scratchSize ≤ room.scratch ∧ ∃ salt, salt? setting = some salt ∧
        h.length + 1 ≤ room.output ∧
        digits 2 salt ++ digestText (isCut phrase.length setting.length) salt phrase = h := by
  -- the two schemes are separate functions with the same checks
  by_cases hcut : blockLength < phrase.length ∧ setting.length ≤ hashLength
  · have hc : isCut phrase.length setting.length = true := by simp [isCut, hcut]
    simp only [hash, if_pos hcut, hashSingle, Checks.need_bind_eq_ok_iff,
      Checks.orInvalid_bind_eq_ok_iff, Checks.fit_eq_ok_iff, hc, outputSize, digestText, if_true]
  · have hc : isCut phrase.length setting.length = false := by
      simpa [isCut] using hcut
    simp only [hash, if_neg hcut, hashChained, Checks.need_bind_eq_ok_iff,
      Checks.orInvalid_bind_eq_ok_iff, Checks.fit_eq_ok_iff, hc, outputSize, digestText,
      Bool.false_eq_true, if_false]

theorem hash_demands (phrase setting : Bytes) :
    Room.Demands fun room => hash room phrase setting :=
  .ite
    (.bind (.output _) fun _ => .bind (.scratch _) fun _ => .bind (.const _) fun _ => .fit _)
    (.bind (.output _) fun _ => .bind (.scratch _) fun _ => .bind (.const _) fun _ => .fit _)

theorem isCryptChar_of_mem_digestText {cut : Bool} {c : UInt8}
    (hc : c ∈ digestText cut salt phrase) : Field.isCryptChar c = true := by
  cases cut with
  | false => exact isCryptChar_of_mem_blocks hc
  | true => exact isCryptChar_of_mem_encoded hc

theorem le_length_digestText (cut : Bool) (salt : Nat) (phrase : Bytes) :
    11 ≤ (digestText cut salt phrase).length := by
  cases cut with
  | false => exact le_length_blocks 15 salt phrase
  | true => exact Nat.le_of_eq (length_block salt phrase).symm

theorem length_digestText_le (cut : Bool) (salt : Nat) (phrase : Bytes) :
    (digestText cut salt phrase).length ≤ 11 * maxBlocks := by
  cases cut with
  | false => exact length_blocks_le maxBlocks salt phrase
  | true =>
    rw [digestText, if_pos rfl, length_block]
    decide

/-- The salt, and any number of characters of digest. Whether there are more than eleven of them
    makes a difference to long phrases. -/
def layout : Layout where
  Reading := Nat
  read? := salt?
  head := digits 2
  isLength n := n != 0
  isChar := Field.isCryptChar
  sizing _ phrase setting := isCut phrase setting
  isLength_zero := rfl
  isForbidden_of_isChar := Field.isForbidden_of_isCryptChar
  reread hs _ _ := salt?_digits_append (salt?_eq_some hs).1 _
  hasForbidden_head _ _ := Setting.hasForbidden_of_isCryptChar fun _ hc => has_of_mem_digits hc

theorem layout_describes : layout.Describes hash where
  shape {room phrase setting h} hh := by
    obtain ⟨-, -, salt, hs, hfit, rfl⟩ := hash_eq_ok_iff.1 hh
    have hlen := le_length_digestText (isCut phrase.length setting.length) salt phrase
    exact ⟨hfit, salt, _, hs, ⟨bne_iff_ne.2 (Nat.ne_of_gt (Nat.lt_of_lt_of_le (by decide) hlen)),
      fun c hc => isCryptChar_of_mem_digestText hc⟩, rfl⟩
  congr {room phrase setting setting'} salt hr hr' hsize := by
    replace hr : salt? setting = some salt := hr
    replace hr' : salt? setting' = some salt := hr'
    replace hsize : isCut phrase.length setting.length =
      isCut phrase.length setting'.length := hsize
    have hcut : blockLength < phrase.length ∧ setting.length ≤ hashLength ↔
        blockLength < phrase.length ∧ setting'.length ≤ hashLength := by
      rw [isCut, isCut, Bool.eq_iff_iff, Bool.and_eq_true, Bool.and_eq_true, decide_eq_true_iff,
        decide_eq_true_iff, decide_eq_true_iff] at hsize
      exact hsize
    simp only [hash, hashSingle, hashChained, hr, hr', hcut]

/-- A hash decides between one block and several as its setting did. -/
theorem sizing_hash (hh : hash room phrase setting = .ok h) :
    layout.sizing room phrase.length h.length =
      layout.sizing room phrase.length setting.length := by
  show isCut phrase.length h.length = isCut phrase.length setting.length
  obtain ⟨-, -, salt, hs, hfit, rfl⟩ := hash_eq_ok_iff.1 hh
  -- the length of the setting counts for phrases of more than one block only
  by_cases hphrase : blockLength < phrase.length
  · cases hcut : isCut phrase.length setting.length with
    | false =>
      -- two blocks at least make the hash longer than a hash of one
      have hlen : 22 ≤ (blocks maxBlocks salt phrase).length :=
        le_length_blocks_of_lt (n := 14) salt hphrase
      have hnot : ¬(2 + (blocks maxBlocks salt phrase).length ≤ hashLength) := by
        unfold hashLength
        omega
      simp [isCut, digestText, hnot]
    | true => simp [isCut, digestText, hphrase, length_block, hashLength]
  · simp [isCut, hphrase]

/-! ## Fresh settings -/

theorem salt?_chars (a b : Nat) : salt? [Alphabet.crypt.char a, Alphabet.crypt.char b] =
    some (a % 64 + 64 * (b % 64)) := by
  rw [salt?, ← Alphabet.char_mod _ a, ← Alphabet.char_mod _ b]
  simp [number?, Alphabet.value?_char, Nat.mod_lt]

/-- A fresh setting is two characters of the alphabet. -/
theorem generate_eq_ok {capacity count : Nat} {random : Bytes}
    (hg : generate capacity count random = .ok setting) :
    ∃ a b, setting = [Alphabet.crypt.char a, Alphabet.crypt.char b] := by
  simp only [generate, Checks.need_bind_eq_ok_iff] at hg
  obtain ⟨-, hg⟩ := hg
  match random, hg with
  | a :: b :: _, hg =>
    simp only at hg
    split at hg
    · obtain ⟨-, rfl⟩ := Room.fit_eq_ok_iff.1 hg
      exact ⟨_, _, rfl⟩
    · cases hg

theorem usable_chars (a b : Nat) : layout.Usable hash ⟨384, Hashing.scratchSize⟩
    [Alphabet.crypt.char a, Alphabet.crypt.char b] := by
  have hread := salt?_chars a b
  obtain ⟨-, hpre⟩ := salt?_eq_some hread
  constructor
  case reads =>
    refine ⟨_, hread, ?_⟩
    show _ <+: digits 2 _
    exact ⟨[], (List.append_nil _).trans (hpre.eq_of_length (length_digits ..)).symm⟩
  case hasForbidden =>
    apply Setting.hasForbidden_of_isCryptChar
    intro c hc
    simp only [List.mem_cons, List.not_mem_nil, or_false] at hc
    rcases hc with rfl | rfl <;> exact Alphabet.has_char ..
  case hashes =>
    intro phrase _
    refine ⟨_, hash_eq_ok_iff.2 ⟨?_, by decide, _, hread, ?_, rfl⟩⟩
    · show _ ≤ 384
      unfold outputSize
      split <;> decide
    · have hmax : maxBlocks = 16 := rfl
      have hlen := length_digestText_le
        (isCut phrase.length [Alphabet.crypt.char a, Alphabet.crypt.char b].length)
        (a % 64 + 64 * (b % 64)) phrase
      rw [List.length_append, length_digits]
      show _ ≤ 384
      omega

theorem generate_demands (count : Nat) (random : Bytes) :
    Room.Demands fun room => generate room.output count random :=
  .bind (.output _) fun _ =>
    match random with
    | _ :: _ :: _ => .ite (.fit _) (.const _)
    | [_] | [] => .const _

theorem generate_fitting (capacity count : Nat) (random : Bytes) :
    Room.Fitting capacity (generate capacity count random) :=
  .bind fun _ =>
    match random with
    | _ :: _ :: _ => .ite (.fit _) (.error _)
    | [_] | [] => .error _

theorem usable_of_generate {capacity count : Nat} {random : Bytes}
    (hg : generate capacity count random = .ok setting) :
    layout.Usable hash ⟨384, Hashing.scratchSize⟩ setting ∧
      ∃ c d, setting = [c, d] ∧ Field.isCryptChar c = true ∧ Field.isCryptChar d = true := by
  obtain ⟨a, b, rfl⟩ := generate_eq_ok hg
  exact ⟨usable_chars a b, _, _, rfl, Alphabet.has_char .., Alphabet.has_char ..⟩

/-! ## Salting -/

/-- The low six bits of a byte. -/
def lowBits (b : UInt8) : UInt8 := UInt8.ofNat (b.toNat % 64)

theorem toNat_lowBits (b : UInt8) : (lowBits b).toNat = b.toNat % 64 := by
  rw [lowBits, UInt8.toNat_ofNat']
  omega

theorem char_lowBits (b : UInt8) :
    Alphabet.crypt.char (lowBits b).toNat = Alphabet.crypt.char b.toNat := by
  rw [toNat_lowBits, Alphabet.char_mod]

/-- A character gives back the six bits that it was chosen by. -/
theorem lowBits_of_char {b b' : UInt8}
    (h : Alphabet.crypt.char (lowBits b).toNat = Alphabet.crypt.char (lowBits b').toNat) :
    lowBits b = lowBits b' := by
  have hlt : ∀ b, (lowBits b).toNat < 64 := fun b => by
    rw [toNat_lowBits]
    exact Nat.mod_lt _ (by decide)
  have hvalue := Alphabet.value?_char .crypt (hlt b)
  rw [h, Alphabet.value?_char .crypt (hlt b'), Option.some.injEq] at hvalue
  exact UInt8.toNat_inj.1 hvalue.symm

/-- The low six bits of a byte string are given back by its characters. -/
theorem map_lowBits_of_map_char {bs bs' : Bytes}
    (h : (bs.map lowBits).map (fun b => Alphabet.crypt.char b.toNat) =
      (bs'.map lowBits).map fun b => Alphabet.crypt.char b.toNat) :
    bs.map lowBits = bs'.map lowBits := by
  induction bs generalizing bs' with
  | nil => rw [List.map_eq_nil_iff.1 (List.map_eq_nil_iff.1 h.symm)]
  | cons b bs ih =>
    cases bs' with
    | nil => cases h
    | cons b' bs' =>
      simp only [List.map_cons, List.cons.injEq] at h
      rw [List.map_cons, List.map_cons, lowBits_of_char h.1, ih h.2]

/-- A salt holds the low six bits of two random bytes and is all of a fresh setting. -/
def salting : Salting where
  part random := (random.take 2).map lowBits
  write := List.map fun b => Alphabet.crypt.char b.toNat
  field setting := setting
  least := 0

theorem salting_describes (capacity : Nat) : salting.Describes (generate capacity) where
  field_eq {count random setting} hg := by
    simp only [generate, Checks.need_bind_eq_ok_iff] at hg
    obtain ⟨-, hg⟩ := hg
    match random, hg with
    | a :: b :: _, hg =>
      simp only at hg
      split at hg
      · obtain ⟨-, rfl⟩ := Room.fit_eq_ok_iff.1 hg
        show _ = [Alphabet.crypt.char (lowBits a).toNat, Alphabet.crypt.char (lowBits b).toNat]
        rw [char_lowBits, char_lowBits]
        rfl
      · cases hg
  part_eq_nil_iff {count random setting} hg := by
    simp only [generate, Checks.need_bind_eq_ok_iff] at hg
    obtain ⟨-, hg⟩ := hg
    match random, hg with
    | _ :: _ :: _, _ => exact iff_of_false (List.cons_ne_nil _ _) (Nat.not_lt_zero _)
  part_nil := rfl
  write_nil := rfl
  write_injective h := map_lowBits_of_map_char h

end Descrypt

end PassHash
