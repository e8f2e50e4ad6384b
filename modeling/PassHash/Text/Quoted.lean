import PassHash.Text.Printable

/-!
# Quoted Texts

Messages show a text in double quotes. Quotes and backslashes in it are escaped, and so is every
character that is not printable, so a message stays on one line and shows all that the text holds.

## Main statements

- `Text.quote_of_graphic`: a text of graphic ASCII characters without quotes and backslashes is
  shown as it is
-/

namespace PassHash

namespace Text

/-- A character by its number: `\u`, and the hexadecimal digits in braces. -/
def escapeNumber (c : Char) : List Char :=
  ['\\', 'u', '\x7b'] ++ Nat.toDigits 16 c.toNat ++ ['\x7d']

/-- A character as it stands in a quoted text. -/
def escapeChar (c : Char) : List Char :=
  if c = '\x00' then ['\\', '0']
  else if c = '\t' then ['\\', 't']
  else if c = '\n' then ['\\', 'n']
  else if c = '\r' then ['\\', 'r']
  else if c = '"' ∨ c = '\\' then ['\\', c]
  else if isPrintable c then [c]
  else escapeNumber c

/-- A text in double quotes. -/
def quote (s : String) : String := String.ofList ('"' :: s.toList.flatMap escapeChar ++ ['"'])

theorem escapeChar_of_graphic {c : Char} (low : 0x20 ≤ c.toNat) (high : c.toNat < 0x7f)
    (hq : c ≠ '"') (hb : c ≠ '\\') : escapeChar c = [c] := by
  have ne {d : Char} (hd : d.toNat < 0x20) : c ≠ d := by
    rintro rfl
    omega
  simp [escapeChar, ne, hq, hb, isPrintable_of_graphic low high]

theorem quote_of_graphic {s : String}
    (h : ∀ c ∈ s.toList, 0x20 ≤ c.toNat ∧ c.toNat < 0x7f ∧ c ≠ '"' ∧ c ≠ '\\') :
    quote s = String.ofList ('"' :: s.toList ++ ['"']) := by
  have flat : ∀ l : List Char,
      (∀ c ∈ l, 0x20 ≤ c.toNat ∧ c.toNat < 0x7f ∧ c ≠ '"' ∧ c ≠ '\\') →
        l.flatMap escapeChar = l := by
    intro l
    induction l with
    | nil => simp
    | cons c l ih =>
      intro hl
      obtain ⟨low, high, hq, hb⟩ := hl c List.mem_cons_self
      rw [List.flatMap_cons, escapeChar_of_graphic low high hq hb,
        ih fun d hd => hl d (List.mem_cons_of_mem _ hd)]
      rfl
  rw [quote, flat _ h]

end Text

end PassHash
