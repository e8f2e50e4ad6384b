import PassHash.Proofs.Base64.HighFirst
import PassHash.Proofs.Base64.WordGroups

/-!
# Texts That Lose Nothing

A digest of fixed size has a text of fixed length, and no other digest of that size has the same
text. Where a scheme scatters the bytes of its digest over groups in an order of its own, this needs
that the order leaves no position out; it may have a position twice. Digests of one size that are
written one after the other can be told apart as well.

## Contents

- `Base64.Lossless`: a way to write digests of a fixed size
- `Base64.Covers`: an order that leaves no position out
- `Base64.WordGroups.spellGroup`: a group of a digest through a word

## Main statements

- `Base64.lossless_scatter`, `Base64.lossless_encodeLow`, `Base64.lossless_encodeHigh`: nothing is
  lost
- `Base64.Lossless.flatMap_eq_iff`: nor of digests one after the other
- `Base64.scatter_eq_flatMap`: an order writes its groups through words
-/

namespace PassHash

namespace Base64

open Alphabet

/-- A way to write a digest of `size` bytes as `width` characters of the alphabet of hashes, no two
    digests alike. -/
structure Lossless (encode : Bytes → Bytes) (size width : Nat) : Prop where
  length_eq {d : Bytes} (hd : d.length = size) : (encode d).length = width
  has_of_mem {d : Bytes} {c : UInt8} (hc : c ∈ encode d) : crypt.has c = true
  inj {d d' : Bytes} (hd : d.length = size) (hd' : d'.length = size)
    (h : encode d = encode d') : d = d'

/-! ## Byte strings -/

theorem lossless_encodeHigh (n : Nat) : Lossless (encodeHigh crypt) n ((4 * n + 2) / 3) where
  length_eq hd := by rw [length_encodeHigh, hd]
  has_of_mem := has_of_mem_encodeHigh
  inj _ _ h := encodeHigh_injective crypt h

theorem lossless_encodeLow (n : Nat) : Lossless encodeLow n ((4 * n + 2) / 3) where
  length_eq hd := by rw [length_encodeLow, hd]
  has_of_mem := has_of_mem_encodeLow
  inj _ _ h := encodeLow_injective h

/-! ## Orders of positions -/

/-- An order of groups with one to three positions each in which all positions below `n` occur. -/
def Covers (order : List (List Nat)) (n : Nat) : Prop :=
  (∀ positions ∈ order, 0 < positions.length ∧ positions.length ≤ 3) ∧
    ∀ i < n, i ∈ order.flatten

instance (order : List (List Nat)) (n : Nat) : Decidable (Covers order n) :=
  inferInstanceAs (Decidable (_ ∧ _))

/-- What an order writes determines the bytes at all its positions. -/
theorem getD_eq_of_scatter {order : List (List Nat)} {d d' : Bytes}
    (horder : ∀ positions ∈ order, 0 < positions.length ∧ positions.length ≤ 3)
    (h : scatter order d = scatter order d') {i : Nat} (hi : i ∈ order.flatten) :
    d.getD i 0 = d'.getD i 0 := by
  induction order with
  | nil => cases hi
  | cons positions order ih =>
    obtain ⟨⟨h0, h3⟩, horder⟩ := List.forall_mem_cons.1 horder
    -- a group takes as many characters whatever its bytes are
    have hlen : ∀ d : Bytes, (positions.map fun i => d.getD i 0).length = positions.length :=
      fun d => List.length_map ..
    have hgroups : (group (positions.map fun i => d.getD i 0)).length =
        (group (positions.map fun i => d'.getD i 0)).length := by
      rw [length_group, length_group, hlen, hlen]
    obtain ⟨hgroup, hrest⟩ := List.append_inj h hgroups
    have hbytes := group_injective (by rw [hlen]; exact h0) (by rw [hlen]; exact h3)
      (by rw [hlen, hlen]) hgroup
    rcases List.mem_append.1 hi with hi | hi
    · exact List.map_inj_left.1 hbytes i hi
    · exact ih horder hrest hi

theorem lossless_scatter {order : List (List Nat)} {n : Nat} (h : Covers order n) :
    Lossless (scatter order) n (order.map fun positions => charsFor positions.length).sum where
  length_eq _ := length_scatter ..
  has_of_mem := has_of_mem_scatter
  inj {d d'} hd hd' hwritten := by
    apply List.ext_getElem (hd.trans hd'.symm)
    intro i hi hi'
    have hbyte := getD_eq_of_scatter h.1 hwritten (h.2 i (hd ▸ hi))
    rwa [← List.getElem_eq_getD, ← List.getElem_eq_getD] at hbyte

/-! ## Digests one after the other -/

theorem Lossless.flatMap_eq_iff {encode : Bytes → Bytes} {size width : Nat}
    (h : Lossless encode size width) (hwidth : 0 < width) {ds ds' : List Bytes}
    (hds : ∀ d ∈ ds, d.length = size) (hds' : ∀ d ∈ ds', d.length = size) :
    ds.flatMap encode = ds'.flatMap encode ↔ ds = ds' := by
  refine ⟨fun heq => ?_, fun heq => by rw [heq]⟩
  -- every digest has characters, so neither list ends before the other
  induction ds generalizing ds' with
  | nil =>
    cases ds' with
    | nil => rfl
    | cons d' ds' =>
      have hlen := h.length_eq (hds' d' List.mem_cons_self)
      have hnil := congrArg List.length heq
      rw [List.flatMap_nil, List.flatMap_cons, List.length_append, hlen, List.length_nil] at hnil
      omega
  | cons d ds ih =>
    obtain ⟨hd, hds⟩ := List.forall_mem_cons.1 hds
    cases ds' with
    | nil =>
      have hnil := congrArg List.length heq
      rw [List.flatMap_nil, List.flatMap_cons, List.length_append, h.length_eq hd,
        List.length_nil] at hnil
      omega
    | cons d' ds' =>
      obtain ⟨hd', hds'⟩ := List.forall_mem_cons.1 hds'
      rw [List.flatMap_cons, List.flatMap_cons] at heq
      obtain ⟨hfirst, hrest⟩ := List.append_inj heq ((h.length_eq hd).trans (h.length_eq hd').symm)
      rw [h.inj hd hd' hfirst, ih hds hds' hrest]

/-! ## Words -/

namespace WordGroups

/-- The characters of up to three bytes, put into a word with zeros above them. -/
def spellGroup : Bytes → Bytes
  | [x, y, z] => spell 4 (Word.ofBytes32 0 x y z)
  | [y, z] => spell 3 (Word.ofBytes32 0 0 y z)
  | [z] => spell 2 (Word.ofBytes32 0 0 0 z)
  | _ => []

theorem toNat_ofBytes32 (w x y z : UInt8) :
    (Word.ofBytes32 w x y z).toNat = bigEndian [w, x, y, z] := by
  rw [Word.ofBytes32_eq_foldl]
  exact toNat_foldl_pushByte (Nat.le_refl 4)

theorem spellGroup_eq {bs : Bytes} (h0 : 0 < bs.length) (h3 : bs.length ≤ 3) :
    spellGroup bs = group bs := by
  match bs, h0, h3 with
  | [x, y, z], _, _ | [y, z], _, _ | [z], _, _ =>
    rw [spellGroup, spell_eq, toNat_ofBytes32]
    simp [group, charsFor, bigEndian]

end WordGroups

/-- What an order writes goes through words. -/
theorem scatter_eq_flatMap {order : List (List Nat)} {n : Nat} (h : Covers order n) (d : Bytes) :
    scatter order d = order.flatMap fun positions =>
      WordGroups.spellGroup (positions.map fun i => d.getD i 0) := by
  refine List.flatMap_congr fun positions hpositions => ?_
  obtain ⟨h0, h3⟩ := h.1 positions hpositions
  exact (WordGroups.spellGroup_eq (by rwa [List.length_map]) (by rwa [List.length_map])).symm

end Base64

end PassHash
