import PassHash.Scheme.Argon2Hash
import PassHash.Scheme.Bcrypt
import PassHash.Scheme.BsdiCrypt
import PassHash.Scheme.Md5Crypt
import PassHash.Scheme.NtHash
import PassHash.Scheme.ScryptHash
import PassHash.Scheme.Sha1Crypt
import PassHash.Scheme.ShaCrypt
import PassHash.Scheme.SunMd5
import PassHash.Scheme.Yescrypt

/-!
# Methods

All hashing methods under one type. A setting selects its method by the characters it starts with;
only traditional DES has no marker and is recognised by two salt characters.

## Contents

- `Method`, `Method.all`: the methods, the preferred one first
- `Method.tag`, `Method.name`, `Method.randomBytes`, `Method.isStrong`: their properties
- `Method.hash`, `Method.generate`: hashing and fresh settings
- `Method.ofSetting?`: the method that a setting selects
-/

namespace PassHash

/-- A hashing method. -/
inductive Method
  | yescrypt
  | keyedYescrypt (v : YescryptHash.Keyed)
  | bcrypt (v : Bcrypt.Variant)
  | argon2 (v : Argon2.Variant)
  | scrypt
  | shaCrypt (v : ShaCrypt.Variant)
  | sha1Crypt
  | sunMd5
  | md5Crypt
  | ntHash
  | bsdiCrypt
  | descrypt
  deriving DecidableEq, Repr

namespace Method

/-- All methods, from the preferred one down to the weakest. -/
def all : List Method :=
  [yescrypt, keyedYescrypt .gost, keyedYescrypt .sm3, bcrypt .b, bcrypt .a, bcrypt .x, bcrypt .y,
    argon2 .id, argon2 .i, argon2 .d, scrypt, shaCrypt .sha512, shaCrypt .sm3, shaCrypt .sha256,
    sha1Crypt, sunMd5, md5Crypt, ntHash, bsdiCrypt, descrypt]

/-- The method of fresh settings for which none is requested. -/
def preferred : Method := yescrypt

/-! ## Properties -/

/-- The characters that select the method; traditional DES has none. -/
def tag : Method → Bytes
  | yescrypt => YescryptHash.tag
  | keyedYescrypt v => v.tag
  | bcrypt v => v.tag
  | argon2 v => Argon2Hash.tag v
  | scrypt => ScryptHash.tag
  | shaCrypt v => v.tag
  | sha1Crypt => Sha1Crypt.tag
  | sunMd5 => SunMd5.tag
  | md5Crypt => Md5Crypt.tag
  | ntHash => NtHash.tag
  | bsdiCrypt => BsdiCrypt.tag
  | descrypt => []

/-- A short name. -/
def name : Method → String
  | yescrypt => "yescrypt"
  | keyedYescrypt .gost => "gost-yescrypt"
  | keyedYescrypt .sm3 => "sm3-yescrypt"
  | bcrypt .b => "bcrypt"
  | bcrypt .a => "bcrypt_a"
  | bcrypt .x => "bcrypt_x"
  | bcrypt .y => "bcrypt_y"
  | argon2 v => Argon2Hash.name v
  | scrypt => "scrypt"
  | shaCrypt .sha512 => "sha512crypt"
  | shaCrypt .sm3 => "sm3crypt"
  | shaCrypt .sha256 => "sha256crypt"
  | sha1Crypt => "sha1crypt"
  | sunMd5 => "sunmd5"
  | md5Crypt => "md5crypt"
  | ntHash => "nthash"
  | bsdiCrypt => "bsdicrypt"
  | descrypt => "descrypt"

/-- The random bytes that a fresh setting draws. -/
def randomBytes : Method → Nat
  | yescrypt | keyedYescrypt _ | bcrypt _ | argon2 _ | scrypt | ntHash => 16
  | shaCrypt _ => 15
  | sha1Crypt => 20
  | sunMd5 => 8
  | md5Crypt => 9
  | bsdiCrypt => 3
  | descrypt => 2

/-- Whether new hashes should be made with the method. -/
def isStrong : Method → Bool
  | yescrypt | keyedYescrypt _ | argon2 _ | scrypt | shaCrypt .sha512 => true
  | bcrypt v => v != .x
  | _ => false

/-! ## Operations -/

/-- The hash of a phrase under a setting, if there is room for it. -/
def hash : Method → Room → (phrase setting : Bytes) → Except Failure Bytes
  | yescrypt => YescryptHash.hash
  | keyedYescrypt v => v.hash
  | bcrypt _ => Bcrypt.hash
  | argon2 v => Argon2Hash.hash v
  | scrypt => ScryptHash.hash
  | shaCrypt v => ShaCrypt.hash v
  | sha1Crypt => Sha1Crypt.hash
  | sunMd5 => SunMd5.hash
  | md5Crypt => Md5Crypt.hash
  | ntHash => NtHash.hash
  | bsdiCrypt => BsdiCrypt.hash
  | descrypt => Descrypt.hash

/-- A fresh setting for a cost and random bytes, if it fits a capacity. -/
def generate : Method → (capacity count : Nat) → (random : Bytes) → Except Failure Bytes
  | yescrypt => YescryptHash.generate
  | keyedYescrypt v => v.generate
  | bcrypt v => Bcrypt.generate v
  | argon2 v => Argon2Hash.generate v
  | scrypt => ScryptHash.generate
  | shaCrypt v => ShaCrypt.generate v
  | sha1Crypt => Sha1Crypt.generate
  | sunMd5 => SunMd5.generate
  | md5Crypt => Md5Crypt.generate
  | ntHash => NtHash.generate
  | bsdiCrypt => BsdiCrypt.generate
  | descrypt => Descrypt.generate

/-- The hash of a phrase, stored in an output area. -/
def hashInto (m : Method) (area : Bytes) (scratch : Nat) (phrase setting : Bytes) :
    Except Failure Bytes × Bytes :=
  Area.settle area (m.hash ⟨area.length, scratch⟩ phrase setting)

/-- A fresh setting, stored in an output area. -/
def generateInto (m : Method) (area : Bytes) (count : Nat) (random : Bytes) :
    Except Failure Bytes × Bytes :=
  Area.settle area (m.generate area.length count random)

/-! ## Selection -/

/-- Whether a setting without marker is one of traditional DES: it starts with two salt characters,
    or it is empty. -/
def isUnmarked (setting : Bytes) : Bool :=
  match setting with
  | [] => true
  | [_] => false
  | c :: d :: _ => Field.isCryptChar c && Field.isCryptChar d

/-- Whether a setting selects the method. -/
def accepts (m : Method) (setting : Bytes) : Bool :=
  match m.tag with
  | [] => isUnmarked setting
  | tag => setting.startsWith tag

/-- The method that a setting selects. -/
def ofSetting? (setting : Bytes) : Option Method := all.find? (·.accepts setting)

/-- The method of a name. -/
def ofName? (name : String) : Option Method := all.find? (·.name == name)

end Method

end PassHash
