import PassHash.Proofs.Hashing

/-!
# Hashes in Output Areas

A method asks for room before it has a text, with a bound that it works out from the setting or has
once and for all, and again when it stores the text. Neither check decides anything but whether
there is a hash: the text is the same wherever it is stored, a larger area receives it as well, and
an area that receives none is not touched.

## Main statements

- `Method.hashInto_fst`: a text that a method hands back always fits
- `Method.hashInto_atomic`: what a method leaves in an output area, and which other areas would do
-/

namespace PassHash

namespace Method

variable {m : Method} {area phrase setting text : Bytes} {scratch : Nat} {e : Failure}

/-- A text that a method hands back fits, so storing it does not fail. -/
theorem hashInto_of_hash_eq_ok (hh : m.hash ⟨area.length, scratch⟩ phrase setting = .ok text) :
    m.hashInto area scratch phrase setting = (.ok text, Area.store area text) := by
  have hfit : text.length + 1 ≤ area.length := (m.layout_describes.shape hh).1
  rw [hashInto, hh, Hashing.settle_ok hfit]

theorem hashInto_of_hash_eq_error (hh : m.hash ⟨area.length, scratch⟩ phrase setting = .error e) :
    m.hashInto area scratch phrase setting = (.error e, area) := by
  rw [hashInto, hh, Area.settle]

/-- The outcome depends on the size of the area only, and storing adds no failures. -/
theorem hashInto_fst (m : Method) (area : Bytes) (scratch : Nat) (phrase setting : Bytes) :
    (m.hashInto area scratch phrase setting).1 =
      m.hash ⟨area.length, scratch⟩ phrase setting := by
  cases hh : m.hash ⟨area.length, scratch⟩ phrase setting with
  | ok text => rw [hashInto_of_hash_eq_ok hh]
  | error e => rw [hashInto_of_hash_eq_error hh]

/-- What is left in an area is the text with its terminator, ahead of what was there. -/
theorem hashInto_snd (h : (m.hashInto area scratch phrase setting).1 = .ok text) :
    text.length + 1 ≤ area.length ∧
      (m.hashInto area scratch phrase setting).2 = text ++ 0 :: area.drop (text.length + 1) := by
  rw [hashInto_fst] at h
  refine ⟨(m.layout_describes.shape h).1, ?_⟩
  rw [hashInto_of_hash_eq_ok h]
  rfl

/-- A method refuses without a trace or stores its text whole. In any other area, with any other
    scratch, it stores the same text or finds no room; and it finds room where there is as much of
    both. -/
theorem hashInto_atomic (m : Method) (phrase setting : Bytes) :
    (∀ area scratch e, (m.hashInto area scratch phrase setting).1 = .error e →
      (m.hashInto area scratch phrase setting).2 = area) ∧
    (∀ area scratch text, (m.hashInto area scratch phrase setting).1 = .ok text →
      (text.length + 1 ≤ area.length ∧
        (m.hashInto area scratch phrase setting).2 = text ++ 0 :: area.drop (text.length + 1)) ∧
      ∀ area' scratch',
        ((m.hashInto area' scratch' phrase setting).1 = .ok text ∨
          (m.hashInto area' scratch' phrase setting).1 = .error .range) ∧
        (area.length ≤ area'.length → scratch ≤ scratch' →
          (m.hashInto area' scratch' phrase setting).1 = .ok text)) := by
  refine ⟨fun area scratch e h => Area.settle_error h, fun area scratch text h =>
    ⟨hashInto_snd h, fun area' scratch' => ?other⟩⟩
  case other =>
    have hdemands := m.hash_demands phrase setting
    rw [hashInto_fst] at h
    rw [hashInto_fst]
    exact ⟨hdemands.eq_or_eq_range h ⟨area'.length, scratch'⟩,
      fun harea hscratch => hdemands.eq_ok_of_le h ⟨harea, hscratch⟩⟩

/-- An NT hash takes 37 bytes: it leaves three of an area of forty, and an area of 36 as it was. -/
theorem hashInto_atomic_ntHash :
    (ntHash.hashInto (List.replicate 36 0xaa) 1040 [] NtHash.tag).2 = List.replicate 36 0xaa ∧
      (ntHash.hashInto (List.replicate 40 0xaa) 1040 [] NtHash.tag).2 =
        Bytes.ascii "$3$$" ++ Bytes.ascii "31d6cfe0d16ae931b73c59d7e0c089c0" ++
          [0, 0xaa, 0xaa, 0xaa] ∧
      (ntHash.hashInto (List.replicate 64 0) 8192 [] NtHash.tag).1 =
        .ok (Bytes.ascii "$3$$" ++ Bytes.ascii "31d6cfe0d16ae931b73c59d7e0c089c0") := by
  have hrefused : (ntHash.hashInto (List.replicate 36 0xaa) 1040 [] NtHash.tag).1 =
      .error .range := by
    rw [hashInto_fst]
    decide
  have hstored : (ntHash.hashInto (List.replicate 40 0xaa) 1040 [] NtHash.tag).1 =
      .ok (Bytes.ascii "$3$$" ++ Bytes.ascii "31d6cfe0d16ae931b73c59d7e0c089c0") := by
    rw [hashInto_fst]
    exact NtHash.hash_nil (by decide) (by decide)
  obtain ⟨herror, hok⟩ := hashInto_atomic ntHash [] NtHash.tag
  obtain ⟨⟨-, harea⟩, hother⟩ := hok _ _ _ hstored
  exact ⟨herror _ _ _ hrefused, harea, (hother _ _).2 (by decide) (by decide)⟩

end Method

end PassHash
