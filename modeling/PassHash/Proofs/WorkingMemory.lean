import PassHash.Proofs.OutputArea

/-!
# Working Memory

A method works in one claim of scratch memory, of a size that is its own. The claim decides whether
there is a hash, and nothing else: what is claimed is zero whatever was done there before, and what
is released is zero whatever was done in between. Within a call the memory is the start of the
internal region, and every method finds as much as it claims.

## Contents

- `Scratch.Use`: what can be done with an area before it is released
- `Method.claimed`: the bytes of scratch that a method claims

## Main statements

- `Scratch.Use.claim_region`, `Scratch.Use.release_eq`: nothing that was done shows in what is
  claimed next, or in what is released
- `Method.hash_of_claim`: the hash of a method with other scratch, in terms of its claim
- `Workspace.exists_claim_scratch`: every method can claim its memory in a call
- `Workspace.crypt_eq_hashInto`: a call in terms of the method and its memory
- `Workspace.scratch_crypt`: the memory of a call is released at its end
-/

namespace PassHash

/-! ## Use of an area -/

namespace Scratch

/-- What an area can become in use: parts of it are claimed, and written to. -/
inductive Use (s : Scratch) : Scratch → Prop
  | start : Use s s
  | claim {t u : Scratch} {n : Nat} (h : Use s t) (hc : t.claim n = .ok u) : Use s u
  | write {t : Scratch} (h : Use s t) (data : Bytes) : Use s (t.write data)

namespace Use

variable {s t : Scratch}

/-- An area keeps its size in use. -/
theorem capacity_eq (h : Use s t) : t.capacity = s.capacity := by
  induction h with
  | start => rfl
  | claim _ hc ih => rw [capacity_claim hc, ih]
  | write _ data ih => rw [capacity_write, ih]

/-- What is claimed after any use depends on the size of the area only: it is zero, or refused for
    lack of room. -/
theorem claim_region (h : Use s t) (n : Nat) : (t.claim n).map (·.region n) =
    (Room.need s.capacity n).map fun _ => List.replicate n 0 := by
  rw [← h.capacity_eq, claim_eq]
  -- the claim makes the check, and puts the zeros at the start of the area
  cases Room.need t.capacity n with
  | error e => rfl
  | ok => exact congrArg Except.ok (List.take_left' List.length_replicate)

/-- What is released after any use is released without any. -/
theorem release_eq (h : Use s t) : t.release = s.release := release_eq_iff.2 h.capacity_eq

end Use

end Scratch

/-! ## Claims of the methods -/

namespace Method

variable {m : Method} {phrase setting h : Bytes} {output scratch : Nat}

/-- The bytes of scratch that a method claims. -/
def claimed : Method → Nat
  | yescrypt | keyedYescrypt _ => YescryptHash.scratchSize
  | bcrypt _ => 144
  | argon2 _ => Argon2Hash.digestSize
  | scrypt => ScryptHash.scratchSize
  | shaCrypt v => 3 * v.function.digestSize
  | sha1Crypt => 40
  | sunMd5 | md5Crypt => 16
  | ntHash => 1040
  | bsdiCrypt | descrypt => Descrypt.scratchSize

theorem claimed_le (m : Method) : m.claimed ≤ Hashing.scratchSize := by
  have hall : ∀ m ∈ all, m.claimed ≤ Hashing.scratchSize := by decide
  exact hall m (mem_all m)

/-- A method has a hash exactly if there is as much scratch as it claims, and it has the hash with no
    more than that. -/
theorem hash_eq_ok_iff_claimed : m.hash ⟨output, scratch⟩ phrase setting = .ok h ↔
    m.claimed ≤ scratch ∧ m.hash ⟨output, m.claimed⟩ phrase setting = .ok h := by
  -- every method checks its claim at another place, and nothing else of the scratch
  cases m with
  | yescrypt => simp [hash, claimed, YescryptHash.hash_eq_ok_iff, and_left_comm]
  | keyedYescrypt v => simp [hash, claimed, YescryptHash.Keyed.hash_eq_ok_iff, and_left_comm]
  | bcrypt v => simp [hash, claimed, Bcrypt.hash_eq_ok_iff, and_left_comm]
  | argon2 v => simp [hash, claimed, Argon2Hash.hash_eq_ok_iff, and_left_comm]
  | scrypt => simp [hash, claimed, ScryptHash.hash_eq_ok_iff, and_left_comm]
  | shaCrypt v => simp [hash, claimed, ShaCrypt.hash_eq_ok_iff, and_left_comm]
  | sha1Crypt => simp [hash, claimed, Sha1Crypt.hash_eq_ok_iff, and_left_comm]
  | sunMd5 => simp [hash, claimed, SunMd5.hash_eq_ok_iff, and_left_comm]
  | md5Crypt => simp [hash, claimed, Md5Crypt.hash_eq_ok_iff, and_left_comm]
  | ntHash => simp [hash, claimed, NtHash.hash_eq_ok_iff, and_left_comm]
  | bsdiCrypt => simp [hash, claimed, BsdiCrypt.hash_eq_ok_iff, and_left_comm]
  | descrypt => simp [hash, claimed, Descrypt.hash_eq_ok_iff, and_left_comm]

/-- Where a method has a hash, it has the same one with any scratch in which it can claim its memory,
    and with any other it fails as the claim does. -/
theorem hash_of_claim (hh : m.hash ⟨output, scratch⟩ phrase setting = .ok h) (s : Scratch) :
    m.hash ⟨output, s.capacity⟩ phrase setting = (s.claim m.claimed).map fun _ => h := by
  obtain ⟨-, hleast⟩ := hash_eq_ok_iff_claimed.1 hh
  rw [Scratch.claim_eq]
  by_cases hn : m.claimed ≤ s.capacity
  · rw [Room.need_eq_ok_iff.2 hn]
    exact hash_eq_ok_iff_claimed.2 ⟨hn, hleast⟩
  · rw [Room.need, if_neg hn]
    -- with other room the hash is the same or there is none for lack of room
    rcases (m.hash_demands phrase setting).eq_or_eq_range hh ⟨output, s.capacity⟩ with hok | hrange
    · exact absurd (hash_eq_ok_iff_claimed.1 hok).1 hn
    · exact hrange

end Method

/-! ## Memory of a call -/

namespace Workspace

variable {ws : Workspace} {phrase setting : Bytes} {m : Method}

theorem capacity_scratch (ws : Workspace) : ws.scratch.capacity = Hashing.scratchSize := by
  have hle : Hashing.scratchSize ≤ ws.internal.bytes.length := by
    rw [ws.internal.length_bytes]
    decide
  exact List.length_take_of_le hle

/-- In a call every method can claim its memory, and finds it zero. -/
theorem exists_claim_scratch (ws : Workspace) (m : Method) : ∃ s,
    ws.scratch.claim m.claimed = .ok s ∧ s.region m.claimed = List.replicate m.claimed 0 := by
  have hle : m.claimed ≤ ws.scratch.capacity := by
    rw [capacity_scratch]
    exact m.claimed_le
  have hc := Scratch.claim_eq_ok_iff.2 ⟨hle, rfl⟩
  exact ⟨_, hc, Scratch.region_claim hc⟩

/-- A call that passes the checks of phrase and setting is one of the method, with the memory of the
    workspace and with the output for its area, where the token stands. -/
theorem crypt_eq_hashInto (hphrase : phrase.beforeNul.length ≤ Hashing.maxPhrase)
    (hclean : Setting.hasForbidden setting.beforeNul = false)
    (hm : Method.ofSetting? setting.beforeNul = some m) :
    ((ws.crypt phrase setting).1, (ws.crypt phrase setting).2.output.bytes) =
      m.hashInto (Token.stamp setting.beforeNul ws.output.bytes) ws.scratch.capacity
        phrase.beforeNul setting.beforeNul := by
  -- the token keeps the size of the output, so the room is that of any call
  have hlen : (Token.stamp setting.beforeNul ws.output.bytes).length = 384 := by
    rw [Token.length_stamp, ws.output.length_bytes]
  have hroom : (⟨(Token.stamp setting.beforeNul ws.output.bytes).length, ws.scratch.capacity⟩ :
      Room) = Method.room := by
    rw [hlen, capacity_scratch]
    rfl
  have htext := Hashing.text_eq_hash hphrase hclean hm
  cases hh : m.hash Method.room phrase.beforeNul setting.beforeNul with
  | ok h =>
    have hc : (ws.crypt phrase setting).1 = .ok h := by rw [crypt_fst, htext, hh]
    rw [output_of_ok hc, hc, Method.hashInto_of_hash_eq_ok (hroom ▸ hh)]
  | error e =>
    have hc : (ws.crypt phrase setting).1 = .error e := by rw [crypt_fst, htext, hh]
    rw [output_of_error hc, hc, Method.hashInto_of_hash_eq_error (hroom ▸ hh)]

/-- Whatever a method does with its memory in a call, the workspace has it back released. -/
theorem scratch_crypt {s : Scratch} (hs : ws.scratch.Use s) :
    (ws.crypt phrase setting).2.scratch = s.release := by
  have htake : (Region.zero 30720).bytes.take Hashing.scratchSize =
      List.replicate Hashing.scratchSize 0 := List.take_replicate
  rw [hs.release_eq, Scratch.release, capacity_scratch, ← htake]
  rfl

end Workspace

end PassHash
