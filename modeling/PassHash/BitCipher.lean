import PassHash.Workspace

/-!
# The Bitwise Cipher Interface

An old interface to DES passes keys and blocks as 64 bytes of one bit each and keeps the round keys
in the internal region of a workspace, where the next hash wipes them.

## Contents

- `BitCipher.pack`, `BitCipher.unpack`: blocks and their bits
- `Workspace.setKey`, `Workspace.encrypt`: key and cipher
- `Session`: the workspaces of one thread

## Main statements

- `BitCipher.length_unpack`: a block has 64 bits
-/

namespace PassHash

namespace BitCipher

/-- The word of the low bits of bytes, the most significant first. -/
def packWord (bits : Bytes) : UInt32 :=
  bits.foldl (fun w b => (w <<< 1) ||| (b &&& 1).toUInt32) 0

/-- The block of the low bits of 64 bytes. -/
def pack (bits : Bytes) : Des.Block := ⟨packWord (bits.take 32), packWord ((bits.drop 32).take 32)⟩

/-- The 32 bits of a word, the most significant first. -/
def unpackWord (w : UInt32) : Bytes :=
  (List.range 32).map fun i => ((w >>> UInt32.ofNat (31 - i)) &&& 1).toUInt8

/-- The 64 bits of a block. -/
def unpack (b : Des.Block) : Bytes := unpackWord b.left ++ unpackWord b.right

theorem length_unpack (b : Des.Block) : (unpack b).length = 64 := by
  simp [unpack, unpackWord]

/-- The direction for a flag: anything but zero decrypts. -/
def direction (flag : Int) : Des.Direction := if flag = 0 then .encrypt else .decrypt

end BitCipher

namespace Workspace

/-- The workspace with the round keys of a key; the salt is zero. -/
def setKey (ws : Workspace) (key : Bytes) : Workspace :=
  { ws with internal := ws.internal.write (Des.Context.ofKey (BitCipher.pack key) 0).toBytes }

/-- The bits of a block, encrypted or decrypted with the round keys of a workspace. -/
def encrypt (ws : Workspace) (block : Bytes) (flag : Int) : Bytes :=
  let ctx := Des.Context.ofBytes (ws.internal.bytes.take Des.Context.storedSize)
  BitCipher.unpack (ctx.crypt (BitCipher.direction flag) 1 (BitCipher.pack block))

end Workspace

/-- The workspaces of one thread: one for hashes, one for the cipher. -/
structure Session where
  hashing : Workspace
  cipher : Workspace

namespace Session

/-- The workspaces at the start of a thread. -/
def start : Session := ⟨.zero, .zero⟩

/-- The hash of a phrase, or the failure token in its place. -/
def crypt (s : Session) (phrase setting : Bytes) : Bytes × Session :=
  let (text, ws) := s.hashing.cryptText phrase setting
  (text, { s with hashing := ws })

/-- The session with a key for the cipher. -/
def setKey (s : Session) (key : Bytes) : Session := { s with cipher := s.cipher.setKey key }

/-- The bits of a block under the session's key. -/
def encrypt (s : Session) (block : Bytes) (flag : Int) : Bytes := s.cipher.encrypt block flag

end Session

end PassHash
