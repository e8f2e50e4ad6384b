import PassHash.Word

/-!
# Blowfish

The block cipher under bcrypt. Its state is a list of eighteen subkeys and four substitutions of 256
words; at the start they are the binary digits of the fraction of π, and keys are expanded into them
by encrypting the cipher's own output.

## Contents

- `Blowfish.fraction`: the digits of π
- `Blowfish.State`, `Blowfish.State.encrypt`: the cipher
- `Blowfish.State.expand`: key expansion with a salt
-/

namespace PassHash

namespace Blowfish

/-! ## The digits of π -/

/-- The alternating sum of `power / odd`, `power / square / (odd + 2)` and so on, to `n` terms. -/
def arctanSum (square : Nat) : (n : Nat) → (power odd : Nat) → Int
  | 0, _, _ => 0
  | n + 1, power, odd => (power / odd : Nat) - arctanSum square n (power / square) (odd + 2)

/-- The arc tangent of `1 / k`, scaled by `2 ^ bits`, with as many terms as count. -/
def arctan (bits k : Nat) : Int := arctanSum (k * k) (bits / 4) ((1 <<< bits) / k) 1

/-- How many 32-bit words the state takes. -/
def stateWords : Nat := 18 + 4 * 256

/-- The fraction of π in `32 * stateWords` bits: 16 arctan (1/5) - 4 arctan (1/239), with 64 more
    bits against rounding. -/
def fraction : Nat :=
  let bits := 32 * stateWords + 64
  let pi := 16 * arctan bits 5 - 4 * arctan bits 239
  (pi.toNat >>> 64) % (1 <<< (32 * stateWords))

/-- The words of the fraction, the leading one first. -/
def fractionWords : Array UInt32 :=
  Array.ofFn fun i : Fin stateWords => UInt32.ofNat (fraction >>> (32 * (stateWords - 1 - i)))

/-! ## The cipher -/

/-- The subkeys, and the four substitutions one after the other. -/
structure State where
  keys : Array UInt32
  boxes : Array UInt32

namespace State

/-- The state before any key. -/
def start : State := ⟨fractionWords.take 18, fractionWords.drop 18⟩

/-- The round function. -/
def mix (boxes : Array UInt32) (x : UInt32) : UInt32 :=
  ((boxes.getD (x >>> 24).toNat 0 + boxes.getD (256 + ((x >>> 16) &&& 0xff).toNat) 0) ^^^
    boxes.getD (512 + ((x >>> 8) &&& 0xff).toNat) 0) + boxes.getD (768 + (x &&& 0xff).toNat) 0

/-- A run of `n` pairs of rounds from subkey `i` on. -/
def rounds (st : State) : (n i : Nat) → (l r : UInt32) → UInt32 × UInt32
  | 0, _, l, r => (l, r)
  | n + 1, i, l, r =>
    let l := l ^^^ st.keys.getD i 0
    let r := r ^^^ mix st.boxes l ^^^ st.keys.getD (i + 1) 0
    rounds st n (i + 2) (l ^^^ mix st.boxes r) r

/-- A block in two halves, encrypted. -/
def encrypt (st : State) (l r : UInt32) : UInt32 × UInt32 :=
  let (l, r) := st.rounds 8 0 l r
  (r ^^^ st.keys.getD 17 0, l ^^^ st.keys.getD 16 0)

/-! ## Key expansion -/

/-- The state with a key added to the subkeys, word by word and over again. -/
def addKey (st : State) (key : Array UInt32) : State :=
  { st with keys := st.keys.mapIdx fun i k => k ^^^ key.getD (i % key.size) 0 }

/-- A run of `n` pairs of subkeys from the `i`-th on, replaced by the running block, to which the
    salt is added before each encryption. -/
def refillKeys (salt : Array UInt32) : (n i : Nat) → State → (l r : UInt32) →
    State × UInt32 × UInt32
  | 0, _, st, l, r => (st, l, r)
  | n + 1, i, st, l, r =>
    let (l, r) := st.encrypt (l ^^^ salt.getD (i % 4) 0) (r ^^^ salt.getD ((i + 1) % 4) 0)
    refillKeys salt n (i + 2)
      { st with keys := (st.keys.setIfInBounds i l).setIfInBounds (i + 1) r } l r

/-- A run of `n` pairs of substitution words from the `i`-th on, replaced in the same way; the salt
    goes on from the subkeys. -/
def refillBoxes (salt : Array UInt32) : (n i : Nat) → State → (l r : UInt32) → State
  | 0, _, st, _, _ => st
  | n + 1, i, st, l, r =>
    let (l, r) := st.encrypt (l ^^^ salt.getD ((i + 18) % 4) 0) (r ^^^ salt.getD ((i + 19) % 4) 0)
    refillBoxes salt n (i + 2)
      { st with boxes := (st.boxes.setIfInBounds i l).setIfInBounds (i + 1) r } l r

/-- The state after expanding a key with a salt of four words. -/
def expand (st : State) (salt key : Array UInt32) : State :=
  let (st, l, r) := refillKeys salt 9 0 (st.addKey key) 0 0
  refillBoxes salt 512 0 st l r

/-- The salt that adds nothing. -/
def noSalt : Array UInt32 := #[0, 0, 0, 0]

end State

end Blowfish

end PassHash
