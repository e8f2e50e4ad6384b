import PassHash.Hashing
import PassHash.Proofs.Bytes.Decimal

/-!
# Kinds of Characters

Digits and the characters of all three alphabets are harmless: none of them separates fields, and
none is forbidden in settings. A text put together from them and from separators is free of
forbidden characters.

## Main statements

- `Field.isCryptChar_of_isDigit`, `Field.isCryptChar_of_has_bcrypt`: kinds within the crypt alphabet
- `Field.isForbidden_of_isCryptChar`: the crypt alphabet is not forbidden
- `Bytes.isUtf8_ofString`, `Bytes.exists_ofString_eq`: texts and their bytes
- `Setting.hasForbidden_eq_false_iff`: when a text is free of forbidden characters
- `Setting.isUtf8_of_hasForbidden`: such a text is well-formed UTF-8
-/

namespace PassHash

namespace Alphabet

theorem has_iff_mem {a : Alphabet} {c : UInt8} : a.has c = true ↔ c ∈ a.chars := by
  rw [has, value?, List.findIdx?_isSome, List.any_eq_true]
  constructor
  · rintro ⟨d, hd, he⟩
    exact beq_iff_eq.1 he ▸ hd
  · exact fun hc => ⟨c, hc, beq_self_eq_true c⟩

/-- What holds of the listed characters holds of every character of an alphabet. -/
theorem of_has {a : Alphabet} {p : UInt8 → Prop} (hall : ∀ c ∈ a.chars, p c) {c : UInt8}
    (h : a.has c = true) : p c :=
  hall c (has_iff_mem.1 h)

end Alphabet

/-! ## Characters of fields -/

namespace Field

open Alphabet

variable {c : UInt8}

theorem isCryptChar_of_has_bcrypt (h : bcrypt.has c = true) : isCryptChar c = true :=
  of_has (p := (isCryptChar · = true)) (by decide +kernel) h

theorem isCryptChar_or_plus_of_has_standard (h : standard.has c = true) :
    isCryptChar c = true ∨ c = '+'.toUInt8 :=
  of_has (p := fun c => isCryptChar c = true ∨ c = '+'.toUInt8) (by decide +kernel) h

theorem isCryptChar_of_isDigit (h : Bytes.isDigit c = true) : isCryptChar c = true := by
  obtain ⟨d, hd, rfl⟩ := Bytes.exists_digit_of_isDigit h
  have hall : ∀ d < 10, isCryptChar (Bytes.digit d) = true := by decide +kernel
  exact hall d hd

theorem isForbidden_of_isCryptChar (h : isCryptChar c = true) : Setting.isForbidden c = false :=
  of_has (p := (Setting.isForbidden · = false)) (by decide +kernel) h

theorem isEntryChar_of_isCryptChar (h : isCryptChar c = true) : isEntryChar c = true :=
  of_has (p := (isEntryChar · = true)) (by decide +kernel) h

theorem isCryptChar_dollar : isCryptChar dollar = false := by decide +kernel

theorem isEntryChar_dollar : isEntryChar dollar = false := by decide

theorem ne_dollar_of_isCryptChar (h : isCryptChar c = true) : c ≠ dollar := by
  rintro rfl
  rw [isCryptChar_dollar] at h
  cases h

theorem dollar_notMem {s : Bytes} (h : ∀ c ∈ s, isCryptChar c = true) : dollar ∉ s :=
  fun hm => ne_dollar_of_isCryptChar (h dollar hm) rfl

end Field

/-! ## Text -/

namespace Bytes

theorem utf8EncodeChar_ofUInt8 {c : UInt8} (h : c < 128) :
    String.utf8EncodeChar (Char.ofUInt8 c) = [c] := by
  have hval : (Char.ofUInt8 c).val = c.toUInt32 := rfl
  have hle : c.toNat ≤ 127 := Nat.le_of_lt_succ h
  simp [String.utf8EncodeChar, hval, hle]

theorem isValidUTF8_of_lt {b : Bytes} (h : ∀ c ∈ b, c < 128) : b.toByteArray.IsValidUTF8 := by
  induction b with
  | nil => exact ByteArray.isValidUTF8_empty
  | cons c b ih =>
    have hc : [c].toByteArray.IsValidUTF8 := by
      rw [← utf8EncodeChar_ofUInt8 (h c List.mem_cons_self)]
      exact Char.isValidUTF8_toByteArray_utf8EncodeChar
    have hcons := hc.append (ih fun d hd => h d (List.mem_cons_of_mem c hd))
    rwa [← List.toByteArray_append] at hcons

theorem mk_toArray_eq (b : Bytes) : (⟨b.toArray⟩ : ByteArray) = b.toByteArray := by
  apply ByteArray.ext
  simp

theorem isUtf8_iff {b : Bytes} : b.isUtf8 = true ↔ b.toByteArray.IsValidUTF8 := by
  rw [isUtf8, toString?, mk_toArray_eq, String.fromUTF8?]
  split <;> simp [*]

/-- ASCII is well-formed UTF-8. -/
theorem isUtf8_of_lt {b : Bytes} (h : ∀ c ∈ b, c < 128) : b.isUtf8 = true :=
  isUtf8_iff.2 (isValidUTF8_of_lt h)

theorem isUtf8_append {a b : Bytes} (ha : a.isUtf8 = true) (hb : b.isUtf8 = true) :
    (a ++ b).isUtf8 = true := by
  rw [isUtf8_iff] at ha hb ⊢
  rw [List.toByteArray_append]
  exact ha.append hb

theorem isUtf8_ofString (s : String) : (ofString s).isUtf8 = true := by
  have hs : (ofString s).toByteArray = s.toByteArray := by
    apply ByteArray.ext
    simp [ofString]
  rw [isUtf8_iff, hs]
  exact s.isValidUTF8

/-- Well-formed bytes are those of a text. -/
theorem exists_ofString_eq {b : Bytes} (h : b.isUtf8 = true) : ∃ s, ofString s = b := by
  refine ⟨⟨b.toByteArray, isUtf8_iff.1 h⟩, ?_⟩
  show b.toByteArray.data.toList = b
  simp

theorem ofString_append (s t : String) : ofString (s ++ t) = ofString s ++ ofString t := by
  simp [ofString]

/-- A text does not start with a hyphen if its bytes do not. -/
theorem head?_toList_ne_hyphen {s : String} (h : (ofString s).head? ≠ some '-'.toUInt8) :
    s.toList.head? ≠ some '-' := by
  intro hhyphen
  obtain ⟨rest, hrest⟩ := List.head?_eq_some_iff.1 hhyphen
  have hs : s = "-" ++ String.ofList rest := by
    apply String.toList_injective
    simp [hrest]
  apply h
  rw [hs, ofString_append]
  rfl

end Bytes

/-! ## Forbidden characters -/

namespace Setting

theorem hasForbidden_eq_false_iff {s : Bytes} :
    hasForbidden s = false ↔ ∀ c ∈ s, isForbidden c = false := by
  simp [hasForbidden]

@[simp] theorem hasForbidden_nil : hasForbidden [] = false := rfl

@[simp] theorem hasForbidden_cons (c : UInt8) (s : Bytes) :
    hasForbidden (c :: s) = (isForbidden c || hasForbidden s) := rfl

@[simp] theorem hasForbidden_append (s t : Bytes) :
    hasForbidden (s ++ t) = (hasForbidden s || hasForbidden t) := List.any_append

@[simp] theorem isForbidden_dollar : isForbidden Field.dollar = false := by decide

theorem hasForbidden_of_isCryptChar {s : Bytes} (h : ∀ c ∈ s, Field.isCryptChar c = true) :
    hasForbidden s = false :=
  hasForbidden_eq_false_iff.2 fun c hc => Field.isForbidden_of_isCryptChar (h c hc)

theorem hasForbidden_of_subset {s t : Bytes} (hsub : s ⊆ t) (h : hasForbidden t = false) :
    hasForbidden s = false :=
  hasForbidden_eq_false_iff.2 fun c hc => hasForbidden_eq_false_iff.1 h c (hsub hc)

theorem zero_notMem {s : Bytes} (h : hasForbidden s = false) : 0 ∉ s := by
  intro h0
  have hzero : isForbidden 0 = true := by decide
  rw [hasForbidden_eq_false_iff.1 h 0 h0] at hzero
  cases hzero

theorem beforeNul_of_hasForbidden {s : Bytes} (h : hasForbidden s = false) : s.beforeNul = s :=
  Bytes.beforeNul_eq_self (zero_notMem h)

/-- A text free of forbidden characters is ASCII. -/
theorem isUtf8_of_hasForbidden {s : Bytes} (h : hasForbidden s = false) : s.isUtf8 = true := by
  apply Bytes.isUtf8_of_lt
  intro c hc
  have hf := hasForbidden_eq_false_iff.1 h c hc
  rw [isForbidden, Bool.or_eq_false_iff, Bool.or_eq_false_iff, decide_eq_false_iff_not,
    decide_eq_false_iff_not, UInt8.not_le] at hf
  exact UInt8.lt_trans (UInt8.not_le.1 hf.1.2) (by decide)

theorem hasForbidden_decimal (n : Nat) : hasForbidden (Bytes.decimal n) = false :=
  hasForbidden_of_isCryptChar fun _ hc =>
    Field.isCryptChar_of_isDigit (Bytes.isDigit_of_mem_decimal hc)

end Setting

end PassHash
