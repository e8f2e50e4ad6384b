import PassHash.Digest.Md5
import PassHash.Scheme.Field
import PassHash.Scheme.Md5Crypt

/-!
# Sun MD5

`$md5[,rounds=N]$salt$`. Each of the 4096 and N rounds hashes the digest so far, a long passage of
text if a coin toss that the digest decides comes up heads, and the number of the round.

## Contents

- `SunMd5.Setting`, `SunMd5.parse?`: separator, rounds, salt and closing separator
- `SunMd5.coin`: the coin toss
- `SunMd5.hash`, `SunMd5.generate`: hashing and fresh settings
-/

namespace PassHash

namespace SunMd5

/-! ## Settings -/

/-- The marker of the scheme. -/
def tag : Bytes := Bytes.ascii "$md5"

/-- The most rounds that a setting states. -/
def maxRounds : Nat := 0xffffffff

/-- The rounds of every hash, to which the stated rounds are added. -/
def baseRounds : UInt32 := 4096

/-- What a setting consists of: the separator after the marker, the stated rounds, the salt, and
    whether a separator that closes the salt belongs to it. -/
structure Setting where
  separator : UInt8
  rounds? : Option Nat
  salt : Bytes
  closed : Bool
  deriving DecidableEq, Repr

namespace Setting

/-- The text that is hashed and repeated in the result. -/
def text (s : Setting) : Bytes :=
  let field :=
    match s.rounds? with
    | some n => Bytes.ascii "rounds=" ++ Bytes.decimal n ++ [Field.dollar]
    | none => []
  tag ++ [s.separator] ++ field ++ s.salt ++ (if s.closed then [Field.dollar] else [])

/-- The number of rounds, in 32 bits. -/
def rounds (s : Setting) : UInt32 := baseRounds + UInt32.ofNat (s.rounds?.getD 0)

end Setting

/-- The stated rounds at the start of a text, if any, and the text after them. -/
def roundsField? (s : Bytes) : Option (Option Nat × Bytes) :=
  match Bytes.after? (Bytes.ascii "rounds=") s with
  | none => some (none, s)
  | some number => do
    let (n, rest) ← Field.number? maxRounds number
    match rest with
    | c :: rest => if c = Field.dollar then some (some n, rest) else none
    | [] => none

/-- Whether the separator at the start of a text belongs to the salt before it: it does when another
    one or nothing follows. -/
def closes (s : Bytes) : Bool :=
  match s with
  | [] => false
  | [_] => true
  | _ :: c :: _ => c == Field.dollar

/-- The parts of a setting. -/
def parse? (setting : Bytes) : Option Setting := do
  match ← Bytes.after? tag setting with
  | [] => none
  | separator :: rest =>
    if separator = Field.dollar ∨ separator = ','.toUInt8 then
      let (rounds?, rest) ← roundsField? rest
      let salt ← Field.salt? Field.isCryptChar rest
      pure ⟨separator, rounds?, salt, closes (rest.drop salt.length)⟩
    else none

/-! ## Coin toss -/

/-- The lines of Hamlet's soliloquy, act III, scene 1. -/
def passageLines : List String :=
  ["To be, or not to be,--that is the question:--",
   "Whether 'tis nobler in the mind to suffer",
   "The slings and arrows of outrageous fortune",
   "Or to take arms against a sea of troubles,",
   "And by opposing end them?--To die,--to sleep,--",
   "No more; and by a sleep to say we end",
   "The heartache, and the thousand natural shocks",
   "That flesh is heir to,--'tis a consummation",
   "Devoutly to be wish'd. To die,--to sleep;--",
   "To sleep! perchance to dream:--ay, there's the rub;",
   "For in that sleep of death what dreams may come,",
   "When we have shuffled off this mortal coil,",
   "Must give us pause: there's the respect",
   "That makes calamity of so long life;",
   "For who would bear the whips and scorns of time,",
   "The oppressor's wrong, the proud man's contumely,",
   "The pangs of despis'd love, the law's delay,",
   "The insolence of office, and the spurns",
   "That patient merit of the unworthy takes,",
   "When he himself might his quietus make",
   "With a bare bodkin? who would these fardels bear,",
   "To grunt and sweat under a weary life,",
   "But that the dread of something after death,--",
   "The undiscover'd country, from whose bourn",
   "No traveller returns,--puzzles the will,",
   "And makes us rather bear those ills we have",
   "Than fly to others that we know not of?",
   "Thus conscience does make cowards of us all;",
   "And thus the native hue of resolution",
   "Is sicklied o'er with the pale cast of thought;",
   "And enterprises of great pith and moment,",
   "With this regard, their currents turn awry,",
   "And lose the name of action.--Soft you now!",
   "The fair Ophelia!--Nymph, in thy orisons",
   "Be all my sins remember'd."]

/-- The passage that heads adds to a round: its lines, each with a line feed, and a NUL at the end.
    -/
def passage : Bytes := passageLines.flatMap (fun line => Bytes.ascii line ++ [0x0a]) ++ [0]

/-- Byte `i` of a digest, counted around. -/
def byteAt (digest : Array UInt8) (i : Nat) : Nat := (digest.getD (i % 16) 0).toNat

/-- Bit `n` of a digest, counted around. -/
def bitAt (digest : Array UInt8) (n : Nat) : Bool := (byteAt digest (n / 8)).testBit (n % 8)

/-- The `i`-th bit that the digest picks out of itself. -/
def pick (digest : Array UInt8) (i : Nat) : Bool :=
  let a := byteAt digest i
  let b := byteAt digest (i + 3)
  -- two bytes choose a third and decide whether it is halved
  let v := byteAt digest (a >>> (b % 5))
  bitAt digest (if b.testBit (a % 8) then v / 2 else v)

/-- The number of eight picked bits from the `i`-th on, the first of them the lowest. -/
def pickByte (digest : Array UInt8) (i : Nat) : Nat :=
  Nat.fold 8 (fun j _ n => if pick digest (i + j) then n + (1 <<< j) else n) 0

/-- Whether the toss of a round comes up heads. -/
def coin (digest : Array UInt8) (round : Nat) : Bool :=
  let x := pickByte digest 0
  let y := pickByte digest 8
  -- the number of the round decides on seven bits of each
  let x := if bitAt digest round then x / 2 else x
  let y := if bitAt digest (round + 64) then y / 2 else y
  bitAt digest x != bitAt digest y

/-! ## Digests -/

/-- The digest after one more round. -/
def step (digest : Bytes) (round : Nat) : Bytes :=
  Md5.digest (digest ++ (if coin digest.toArray round then passage else []) ++
    Bytes.decimal round)

/-- The digest of a phrase. -/
def digest (s : Setting) (phrase : Bytes) : Bytes :=
  Nat.fold s.rounds.toNat (fun i _ digest => step digest i) (Md5.digest (phrase ++ s.text))

/-! ## Hashing -/

/-- The hash of a phrase. -/
def hash (room : Room) (phrase setting : Bytes) : Except Failure Bytes := do
  let s ← Failure.orInvalid (parse? setting)
  Room.need room.output (s.text.length + 22 + 2)
  Room.need room.scratch 16
  Room.fit room.output
    (s.text ++ [Field.dollar] ++ Base64.scatter Md5Crypt.order (digest s phrase))

/-- The longest fresh setting. -/
def maxFresh : Nat := 32

/-- The stated rounds of a fresh setting: the requested ones, within bounds, and sixteen random bits
    on top. -/
def freshRounds (count : Nat) (a b : UInt8) : Nat :=
  max 32768 (min count (maxRounds - 65536)) + 256 * a.toNat + b.toNat

/-- A fresh setting from eight random bytes. -/
def generate (capacity count : Nat) (random : Bytes) : Except Failure Bytes := do
  Room.need capacity (maxFresh + 1)
  match random with
  | a :: b :: c :: d :: e :: f :: g :: h :: _ =>
    Room.fit capacity
      -- the first two bytes go into the rounds, the others into the salt
      (tag ++ Bytes.ascii ",rounds=" ++ Bytes.decimal (freshRounds count a b) ++ [Field.dollar] ++
        Base64.group [e, d, c] ++ Base64.group [h, g, f] ++ [Field.dollar])
  | _ => .error .invalid

end SunMd5

end PassHash
