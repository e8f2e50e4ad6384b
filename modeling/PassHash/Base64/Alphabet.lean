import PassHash.Bytes

/-!
# Base-64 Alphabets

Three alphabets write six bits as one character: the one that almost every scheme uses, the one of
bcrypt, and the standard one, which serves Argon2 alone. They differ in the order of the characters
only.

## Main statements

- `Alphabet.value?_char`, `Alphabet.char_of_value?`: characters and values below 64 correspond
- `Alphabet.value?_lt`: a character stands for a value below 64
-/

namespace PassHash

/-- Sixty-four distinct characters in the order of the values that they stand for. -/
structure Alphabet where
  chars : Bytes
  length_chars : chars.length = 64
  nodup_chars : chars.Nodup

namespace Alphabet

/-- The alphabet of settings and hashes: `./0-9A-Za-z`. -/
def crypt : Alphabet where
  chars := Bytes.ascii "./0123456789ABCDEFGHIJKLMNOPQRSTUVWXYZabcdefghijklmnopqrstuvwxyz"
  length_chars := by decide
  nodup_chars := by decide +kernel

/-- The alphabet of bcrypt: `./A-Za-z0-9`. -/
def bcrypt : Alphabet where
  chars := Bytes.ascii "./ABCDEFGHIJKLMNOPQRSTUVWXYZabcdefghijklmnopqrstuvwxyz0123456789"
  length_chars := by decide
  nodup_chars := by decide +kernel

/-- The standard alphabet: `A-Za-z0-9+/`. -/
def standard : Alphabet where
  chars := Bytes.ascii "ABCDEFGHIJKLMNOPQRSTUVWXYZabcdefghijklmnopqrstuvwxyz0123456789+/"
  length_chars := by decide
  nodup_chars := by decide +kernel

/-- The character for the low six bits of a value. -/
def char (a : Alphabet) (v : Nat) : UInt8 :=
  a.chars.get ⟨v % 64, a.length_chars.symm ▸ Nat.mod_lt _ (by decide)⟩

/-- The value of a character, if it is in the alphabet. -/
def value? (a : Alphabet) (c : UInt8) : Option Nat := a.chars.findIdx? (· == c)

/-- Whether a character is in the alphabet. -/
def has (a : Alphabet) (c : UInt8) : Bool := (a.value? c).isSome

theorem value?_lt {a : Alphabet} {c : UInt8} {v : Nat} (h : a.value? c = some v) : v < 64 := by
  obtain ⟨hv, -⟩ := List.findIdx?_eq_some_iff_getElem.1 h
  exact a.length_chars ▸ hv

theorem char_of_value? {a : Alphabet} {c : UInt8} {v : Nat} (h : a.value? c = some v) :
    a.char v = c := by
  have hlt := value?_lt h
  obtain ⟨hv, hc, -⟩ := List.findIdx?_eq_some_iff_getElem.1 h
  simpa [char, Nat.mod_eq_of_lt hlt] using hc

theorem value?_char (a : Alphabet) {v : Nat} (h : v < 64) : a.value? (a.char v) = some v := by
  have hv : v < a.chars.length := a.length_chars.symm ▸ h
  refine List.findIdx?_eq_some_iff_getElem.2 ⟨hv, by simp [char, Nat.mod_eq_of_lt h], ?_⟩
  intro j hj
  have hne : a.chars[j] ≠ a.chars[v] :=
    List.pairwise_iff_getElem.1 a.nodup_chars j v (Nat.lt_trans hj hv) hv hj
  simpa [char, Nat.mod_eq_of_lt h] using hne

theorem char_mod (a : Alphabet) (v : Nat) : a.char (v % 64) = a.char v := by
  simp [char]

theorem has_char (a : Alphabet) (v : Nat) : a.has (a.char v) = true := by
  rw [← char_mod, has, value?_char a (Nat.mod_lt _ (by decide))]
  rfl

end Alphabet

end PassHash
