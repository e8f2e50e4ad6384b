import PassHash.Hashing

/-!
# Workspaces

A caller keeps one record for all the memory of a hashing call: the output, two regions for its own
use, and internal regions that every call wipes. The same record can be laid out in a plain buffer.

## Contents

- `Region`: a byte string of fixed size
- `Workspace`: the record, and its layout as bytes
- `Workspace.crypt`: hashing in a workspace
- `Workspace.cryptIn`, `Workspace.cryptGrowing`: hashing in a buffer
- `crypt`: hashing without a workspace

## Main statements

- `Region.isZero_iff`, `Region.filled_bytes`: what the check for zeros and the filling are
- `Workspace.length_toBytes`: a workspace takes 32768 bytes
-/

namespace PassHash

/-! ## Regions -/

/-- A byte string of a fixed size. -/
structure Region (size : Nat) where
  bytes : Bytes
  length_bytes : bytes.length = size

namespace Region

/-- The region of zeros. -/
def zero (size : Nat) : Region size := ⟨List.replicate size 0, List.length_replicate⟩

/-- The region filled by repeating a pattern; an empty one leaves zeros. -/
def filled (size : Nat) (pattern : Bytes) : Region size :=
  if h : 0 < pattern.length then ⟨pattern.recycle size, Bytes.length_recycle h size⟩
  else zero size

/-- Whether every byte is zero. -/
def isZero {size : Nat} (r : Region size) : Bool := r.bytes.all (· == 0)

theorem isZero_iff {size : Nat} {r : Region size} : r.isZero = true ↔ r = zero size := by
  obtain ⟨bytes, rfl⟩ := r
  simp [isZero, zero, List.eq_replicate_iff]

/-- Every region is one that its own bytes fill. -/
theorem filled_bytes {size : Nat} (r : Region size) : filled size r.bytes = r := by
  obtain ⟨bytes, rfl⟩ := r
  by_cases h : 0 < bytes.length
  · have hblock : ¬(bytes.length = 0 ∨ bytes.length < bytes.length) := by omega
    simp only [filled, dif_pos h]
    rw [mk.injEq, Bytes.recycle, dif_neg hblock, Nat.sub_self, Bytes.recycle, dif_pos (.inr h),
      List.take_zero, List.append_nil]
  · obtain rfl : bytes = [] := List.eq_nil_of_length_eq_zero (by omega)
    rfl

/-- The region with other bytes at its start. -/
def write {size : Nat} (r : Region size) (data : Bytes) : Region size where
  bytes := data.take size ++ r.bytes.drop data.length
  length_bytes := by
    simp [r.length_bytes]
    omega

end Region

/-! ## Workspaces -/

/-- The memory of a hashing call. -/
structure Workspace where
  /-- Receives the hash or the failure token. -/
  output : Region 384
  /-- For the caller's use. -/
  setting : Region 384
  /-- For the caller's use. -/
  input : Region 512
  reserved : Region 767
  initialized : UInt8
  /-- Working memory. -/
  internal : Region 30720

namespace Workspace

/-- The workspace of zeros. -/
def zero : Workspace := ⟨.zero _, .zero _, .zero _, .zero _, 0, .zero _⟩

/-! ## Layout -/

/-- The size of a workspace as bytes. -/
def size : Nat := 384 + 384 + 512 + 767 + 1 + 30720

/-- The bytes of a workspace: its fields in order. -/
def toBytes (ws : Workspace) : Bytes :=
  ws.output.bytes ++ (ws.setting.bytes ++ (ws.input.bytes ++ (ws.reserved.bytes ++
    (ws.initialized :: ws.internal.bytes))))

/-- Part of a long enough byte string as a region. -/
def slice (b : Bytes) (start n : Nat) (h : start + n ≤ b.length) : Region n where
  bytes := (b.drop start).take n
  length_bytes := by
    simp
    omega

/-- The workspace at the start of a long enough byte string. -/
def ofBytes (b : Bytes) (h : size ≤ b.length) : Workspace :=
  have h : 32768 ≤ b.length := h
  { output := slice b 0 384 (by omega)
    setting := slice b 384 384 (by omega)
    input := slice b 768 512 (by omega)
    reserved := slice b 1280 767 (by omega)
    initialized := b[2047]
    internal := slice b 2048 30720 (by omega) }

theorem length_toBytes (ws : Workspace) : ws.toBytes.length = size := by
  simp [toBytes, size, ws.output.length_bytes, ws.setting.length_bytes, ws.input.length_bytes,
    ws.reserved.length_bytes, ws.internal.length_bytes]

/-! ## Hashing -/

/-- The memory that a method works in: as much of the internal region as methods get. -/
def scratch (ws : Workspace) : Scratch := ⟨ws.internal.bytes.take Hashing.scratchSize⟩

/-- What a reader of the output sees: its text, or `*` when that is no text. -/
def outputText (ws : Workspace) : Bytes :=
  let text := ws.output.bytes.beforeNul
  if text.isUtf8 then text else Bytes.ascii "*"

/-- The hash of a phrase, and the workspace with the hash or the failure token as its output and its
    internal regions wiped. -/
def crypt (ws : Workspace) (phrase setting : Bytes) : Except Failure Bytes × Workspace :=
  let out := Hashing.run ws.output.bytes phrase setting
  (out.1,
    { ws with
      output := ⟨out.2, (Hashing.length_run ..).trans ws.output.length_bytes⟩
      reserved := .zero _
      initialized := 0
      internal := .zero _ })

/-- The hash of a phrase, or the failure token in its place. -/
def cryptText (ws : Workspace) (phrase setting : Bytes) : Bytes × Workspace :=
  match ws.crypt phrase setting with
  | (.ok text, ws) => (text, ws)
  | (.error _, ws) => (ws.outputText, ws)

/-- Hashing in a buffer that is laid out as a workspace. A buffer that is too short receives as much
    of the failure token as fits. -/
def cryptIn (buffer phrase setting : Bytes) : Except Failure Bytes × Bytes :=
  if h : size ≤ buffer.length then
    let (result, ws) := (ofBytes buffer h).crypt phrase setting
    (result, ws.toBytes ++ buffer.drop size)
  else
    (.error .range, Token.stamp setting.beforeNul (buffer.take 384) ++ buffer.drop 384)

/-- Hashing in a buffer that is replaced by zeros of sufficient length when it is too short. -/
def cryptGrowing (buffer phrase setting : Bytes) : Except Failure Bytes × Bytes :=
  cryptIn (if size ≤ buffer.length then buffer else List.replicate size 0) phrase setting

end Workspace

/-- The hash of a phrase under a setting, or the failure token in its place. -/
def crypt (phrase setting : Bytes) : Bytes := (Workspace.zero.cryptText phrase setting).1

end PassHash
