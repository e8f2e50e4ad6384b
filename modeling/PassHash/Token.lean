import PassHash.Bytes

/-!
# Failure Tokens

Before anything else a hashing call stamps the output area with a token. A finished hash overwrites
it; after a failure it stays, and a caller who compares the output with a stored hash sees a
mismatch. The token differs from the setting that it answers.

## Main statements

- `Token.length_stamp`: stamping keeps the size of the area
- `Token.beforeNul_stamp_ne`: in an area of three bytes or more, the token read back is not the
  setting
-/

namespace PassHash

namespace Token

/-- The text of the token for a setting: `*0`, or `*1` for a setting that starts with `*0`. -/
def text (setting : Bytes) : Bytes :=
  if setting.startsWith (Bytes.ascii "*0") then Bytes.ascii "*1" else Bytes.ascii "*0"

/-- The bytes that an area of `size` bytes receives: the token and its terminator, or as much of a
    token as fits with one. -/
def ofSize (setting : Bytes) (size : Nat) : Bytes :=
  match size with
  | 0 => []
  | 1 => [0]
  | 2 => Bytes.ascii "*" ++ [0]
  | _ => text setting ++ [0]

/-- An area with the token at its start; later bytes stay. -/
def stamp (setting area : Bytes) : Bytes :=
  ofSize setting area.length ++ area.drop (ofSize setting area.length).length

/-- Whether an output holds a token, or nothing at all, in place of a hash. -/
def isToken (output : Bytes) : Bool :=
  match output with
  | [] => true
  | c :: _ => c == 0 || c == '*'.toUInt8

theorem length_text (setting : Bytes) : (text setting).length = 2 := by
  unfold text
  split <;> rfl

theorem length_ofSize (setting : Bytes) (size : Nat) :
    (ofSize setting size).length = min size 3 := by
  match size with
  | 0 | 1 | 2 => rfl
  | n + 3 => simp [ofSize, length_text]

theorem length_stamp (setting area : Bytes) : (stamp setting area).length = area.length := by
  rw [stamp, List.length_append, List.length_drop, length_ofSize]
  omega

theorem text_ne (setting : Bytes) : text setting ≠ setting := by
  unfold text
  split
  · next h =>
    obtain ⟨rest, rfl⟩ := Bytes.startsWith_iff.1 h
    exact fun he => absurd (List.cons.inj (List.cons.inj he).2).1 (by decide)
  · next h =>
    intro he
    exact h (Bytes.startsWith_iff.2 ⟨[], by rw [List.append_nil, he]⟩)

theorem beforeNul_stamp {setting area : Bytes} (h : 3 ≤ area.length) :
    Bytes.beforeNul (stamp setting area) = text setting := by
  have hs : ofSize setting area.length = text setting ++ [0] := by
    match area, h with
    | _ :: _ :: _ :: _, _ => rfl
  rw [stamp, hs, Bytes.beforeNul, List.append_assoc]
  unfold text
  split <;> rfl

theorem beforeNul_stamp_ne {setting area : Bytes} (h : 3 ≤ area.length) :
    Bytes.beforeNul (stamp setting area) ≠ setting :=
  beforeNul_stamp h ▸ text_ne setting

end Token

end PassHash
