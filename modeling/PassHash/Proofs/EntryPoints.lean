import PassHash.BitCipher
import PassHash.Proofs.Refusal

/-!
# Entry Points

A phrase can be hashed in a workspace, in a buffer that is laid out as one, in a buffer that grows,
and with the workspaces of a thread. The entry points differ in who owns the memory and in nothing
else: what the memory held before shows neither in the result nor, apart from the end of the output,
in what is left there.

## Contents

- `Workspace.wipedSize`: how many bytes of a workspace are zero after a call

## Main statements

- `Token.stamp_take_append_drop`: a token does not depend on what follows its first bytes
- `Workspace.toBytes_ofBytes`, `Workspace.ofBytes_toBytes_append`: the layout is faithful
- `Workspace.cryptIn_toBytes_append`: hashing in a buffer is hashing in the workspace laid out there
- `Workspace.cryptIn_of_length_lt`: a buffer that is too short
- `Workspace.entry_points_agree`: results and memory after a call, at every entry point
-/

namespace PassHash

namespace Token

/-- A token goes into the first three bytes of an area, so it can as well be given to the part that
    holds them. -/
theorem stamp_take_append_drop (setting area : Bytes) {n : Nat} (hn : 3 ≤ n) :
    stamp setting (area.take n) ++ area.drop n = stamp setting area := by
  rcases Nat.le_total area.length n with hle | hle
  · rw [List.take_of_length_le hle, List.drop_eq_nil_of_le hle, List.append_nil]
  · have htake : (area.take n).length = n := List.length_take_of_le hle
    have hdrop : (area.take n).drop 3 ++ area.drop n = area.drop 3 := by
      rw [← List.drop_append_of_le_length (by omega), List.take_append_drop]
    rw [stamp_eq (by omega), stamp_eq (by omega), List.append_assoc, List.cons_append, hdrop]

end Token

namespace Region

variable {n : Nat} {r r' : Region n}

theorem length_eq : r.bytes.length = r'.bytes.length := r.length_bytes.trans r'.length_bytes.symm

/-- Regions of one size differ in their bytes only. -/
theorem bytes_inj (h : r.bytes = r'.bytes) : r = r' := by
  cases r
  cases r'
  cases h
  rfl

end Region

namespace Workspace

variable {phrase setting buffer : Bytes}

/-! ## Layout -/

/-- How many bytes at the end of a workspace are zero after a call. -/
def wipedSize : Nat := 767 + 1 + 30720

/-- The regions of a buffer follow each other without gaps. -/
theorem toBytes_ofBytes (h : size ≤ buffer.length) :
    (ofBytes buffer h).toBytes = buffer.take size := by
  have hinitialized : 2047 < buffer.length := Nat.lt_of_lt_of_le (by decide) h
  show (buffer.drop 0).take 384 ++ ((buffer.drop 384).take 384 ++ ((buffer.drop 768).take 512 ++
    ((buffer.drop 1280).take 767 ++ (buffer[2047] :: (buffer.drop 2048).take 30720)))) = _
  -- each part is the start of what the ones before it leave
  have hcons : buffer[2047] :: (buffer.drop 2048).take 30720 = (buffer.drop 2047).take 30721 := by
    rw [List.drop_eq_getElem_cons hinitialized, List.take_succ_cons]
  have hjoin : ∀ start n m, (buffer.drop start).take n ++ (buffer.drop (start + n)).take m =
      (buffer.drop start).take (n + m) := by
    intro start n m
    rw [List.take_add, List.drop_drop]
  rw [hcons, hjoin 1280 767, hjoin 768 512, hjoin 384 384, hjoin 0 384]
  rfl

/-- Workspaces with the same bytes are the same. -/
theorem toBytes_inj {ws ws' : Workspace} (h : ws.toBytes = ws'.toBytes) : ws = ws' := by
  -- one region after the other, since the lengths are known
  obtain ⟨houtput, h⟩ := List.append_inj h Region.length_eq
  obtain ⟨hsetting, h⟩ := List.append_inj h Region.length_eq
  obtain ⟨hinput, h⟩ := List.append_inj h Region.length_eq
  obtain ⟨hreserved, h⟩ := List.append_inj h Region.length_eq
  obtain ⟨hinitialized, hinternal⟩ := List.cons.inj h
  cases ws
  cases ws'
  rw [mk.injEq]
  exact ⟨Region.bytes_inj houtput, Region.bytes_inj hsetting, Region.bytes_inj hinput,
    Region.bytes_inj hreserved, hinitialized, Region.bytes_inj hinternal⟩

theorem size_le_length (ws : Workspace) (rest : Bytes) : size ≤ (ws.toBytes ++ rest).length := by
  rw [List.length_append, ws.length_toBytes]
  exact Nat.le_add_right ..

/-- A workspace is read back from its bytes, whatever follows them. -/
theorem ofBytes_toBytes_append (ws : Workspace) (rest : Bytes) :
    ofBytes (ws.toBytes ++ rest) (ws.size_le_length rest) = ws := by
  apply toBytes_inj
  rw [toBytes_ofBytes, List.take_left' ws.length_toBytes]

/-- A long enough buffer is a workspace and a rest. -/
theorem eq_toBytes_append (h : size ≤ buffer.length) :
    buffer = (ofBytes buffer h).toBytes ++ buffer.drop size := by
  rw [toBytes_ofBytes, List.take_append_drop]

/-- The two regions of the caller lie next to each other. -/
theorem setting_append_input (ws : Workspace) (rest : Bytes) :
    ws.setting.bytes ++ ws.input.bytes = ((ws.toBytes ++ rest).drop 384).take 896 := by
  have hcaller : (ws.setting.bytes ++ ws.input.bytes).length = 896 := by
    rw [List.length_append, ws.setting.length_bytes, ws.input.length_bytes]
  rw [toBytes, List.append_assoc, List.drop_left' ws.output.length_bytes]
  simp only [List.append_assoc]
  rw [← List.append_assoc ws.setting.bytes, List.take_left' hcaller]

/-! ## Buffers -/

/-- Hashing in a buffer is hashing in the workspace that is laid out there; what follows it
    stays. -/
theorem cryptIn_toBytes_append (ws : Workspace) (rest phrase setting : Bytes) :
    cryptIn (ws.toBytes ++ rest) phrase setting =
      ((ws.crypt phrase setting).1, (ws.crypt phrase setting).2.toBytes ++ rest) := by
  rw [cryptIn, dif_pos (ws.size_le_length rest), ofBytes_toBytes_append,
    List.drop_left' ws.length_toBytes]

/-- A buffer that is too short receives a token and nothing else. -/
theorem cryptIn_of_length_lt (h : buffer.length < size) :
    cryptIn buffer phrase setting = (.error .range, Token.stamp setting.beforeNul buffer) := by
  rw [cryptIn, dif_neg (Nat.not_le_of_lt h), Token.stamp_take_append_drop _ _ (by decide)]

theorem cryptGrowing_of_length_lt (h : buffer.length < size) :
    cryptGrowing buffer phrase setting = cryptIn (List.replicate size 0) phrase setting := by
  rw [cryptGrowing, if_neg (Nat.not_le_of_lt h)]

theorem cryptGrowing_of_le_length (h : size ≤ buffer.length) :
    cryptGrowing buffer phrase setting = cryptIn buffer phrase setting := by
  rw [cryptGrowing, if_pos h]

theorem cryptIn_fst (h : size ≤ buffer.length) : (cryptIn buffer phrase setting).1 =
    Hashing.text 384 phrase.beforeNul setting.beforeNul := by
  rw [eq_toBytes_append h, cryptIn_toBytes_append]
  exact crypt_fst ..

theorem cryptGrowing_fst (buffer phrase setting : Bytes) :
    (cryptGrowing buffer phrase setting).1 =
      Hashing.text 384 phrase.beforeNul setting.beforeNul := by
  rcases Nat.lt_or_ge buffer.length size with h | h
  · rw [cryptGrowing_of_length_lt h, cryptIn_fst (Nat.le_of_eq List.length_replicate.symm)]
  · rw [cryptGrowing_of_le_length h, cryptIn_fst h]

/-! ## Memory after a call -/

/-- After a call the caller's regions are as they were and the others, apart from the output, are
    zero. -/
theorem toBytes_crypt (ws : Workspace) (phrase setting : Bytes) :
    (ws.crypt phrase setting).2.toBytes = (ws.crypt phrase setting).2.output.bytes ++
      (ws.setting.bytes ++ ws.input.bytes) ++ List.replicate wipedSize 0 := by
  have hwiped : List.replicate 767 (0 : UInt8) ++ 0 :: List.replicate 30720 0 =
      List.replicate wipedSize 0 := by
    rw [← List.replicate_succ, List.replicate_append_replicate, wipedSize]
  rw [← hwiped]
  simp only [toBytes, List.append_assoc]
  rfl

/-- The bytes of a buffer after a call: an output, the caller's regions, zeros, and what follows the
    workspace. -/
theorem cryptIn_snd (h : size ≤ buffer.length) (phrase setting : Bytes) :
    ∃ output : Bytes, output.length = 384 ∧ (cryptIn buffer phrase setting).2 =
      output ++ (buffer.drop 384).take 896 ++ List.replicate wipedSize 0 ++ buffer.drop size := by
  refine ⟨((ofBytes buffer h).crypt phrase setting).2.output.bytes, Region.length_bytes _, ?_⟩
  have hcaller := (ofBytes buffer h).setting_append_input (buffer.drop size)
  rw [← eq_toBytes_append h] at hcaller
  rw [← hcaller, ← toBytes_crypt]
  conv => lhs; rw [eq_toBytes_append h, cryptIn_toBytes_append]

/-- A buffer that had to grow is zero apart from the output. -/
theorem cryptGrowing_snd (h : buffer.length < size) (phrase setting : Bytes) :
    ∃ output : Bytes, output.length = 384 ∧
      (cryptGrowing buffer phrase setting).2 = output ++ List.replicate (size - 384) 0 := by
  have hlen : size ≤ (List.replicate size (0 : UInt8)).length :=
    Nat.le_of_eq List.length_replicate.symm
  obtain ⟨output, houtput, hbytes⟩ := cryptIn_snd hlen phrase setting
  refine ⟨output, houtput, ?_⟩
  rw [cryptGrowing_of_length_lt h, hbytes, List.drop_replicate, List.drop_replicate,
    List.take_replicate, List.append_assoc, List.append_assoc, List.replicate_append_replicate,
    List.replicate_append_replicate]
  rfl

/-! ## Agreement -/

/-- All entry points give the same result, whatever their memory held, and the one that returns a
    text returns the hash or else the token that a refused call leaves in the output. After a call
    what it worked with is zero, what is the caller's is as it was, and what follows a workspace in
    a buffer is as it was; a buffer that had to grow is zero apart from the output; one that is too
    short and cannot grow receives a token, or the start of one. -/
theorem entry_points_agree (phrase setting : Bytes) :
    (∀ (ws ws' : Workspace) (s : Session) (buffer growing : Bytes), size ≤ buffer.length →
      (ws'.crypt phrase setting).1 = (ws.crypt phrase setting).1 ∧
      (cryptIn buffer phrase setting).1 = (ws.crypt phrase setting).1 ∧
      (cryptGrowing growing phrase setting).1 = (ws.crypt phrase setting).1 ∧
      (∀ h, (ws.crypt phrase setting).1 = .ok h → (s.crypt phrase setting).1 = h) ∧
      ∀ e, (ws.crypt phrase setting).1 = .error e →
        (s.crypt phrase setting).1 = (ws.crypt phrase setting).2.outputText ∧
        (ws.crypt phrase setting).2.outputText = Token.text setting.beforeNul) ∧
    (∀ ws : Workspace, (ws.crypt phrase setting).2.reserved = .zero _ ∧
      (ws.crypt phrase setting).2.initialized = 0 ∧
      (ws.crypt phrase setting).2.internal = .zero _ ∧
      (ws.crypt phrase setting).2.setting = ws.setting ∧
      (ws.crypt phrase setting).2.input = ws.input) ∧
    (∀ (ws : Workspace) (rest : Bytes), cryptIn (ws.toBytes ++ rest) phrase setting =
      ((ws.crypt phrase setting).1, (ws.crypt phrase setting).2.toBytes ++ rest)) ∧
    (∀ buffer : Bytes, size ≤ buffer.length →
      (∃ output : Bytes, output.length = 384 ∧ (cryptIn buffer phrase setting).2 =
        output ++ (buffer.drop 384).take 896 ++ List.replicate wipedSize 0 ++ buffer.drop size) ∧
      cryptGrowing buffer phrase setting = cryptIn buffer phrase setting) ∧
    (∀ buffer : Bytes, buffer.length < size →
      (∃ output : Bytes, output.length = 384 ∧
        (cryptGrowing buffer phrase setting).2 = output ++ List.replicate (size - 384) 0) ∧
      cryptIn buffer phrase setting = (.error .range, Token.stamp setting.beforeNul buffer)) := by
  refine ⟨?results, fun ws => ⟨rfl, rfl, rfl, rfl, rfl⟩,
    fun ws rest => cryptIn_toBytes_append ws rest phrase setting,
    fun buffer h => ⟨cryptIn_snd h phrase setting, cryptGrowing_of_le_length h⟩,
    fun buffer h => ⟨cryptGrowing_snd h phrase setting, cryptIn_of_length_lt h⟩⟩
  case results =>
    intro ws ws' s buffer growing hbuffer
    have hsame : (s.hashing.crypt phrase setting).1 = (ws.crypt phrase setting).1 := by
      rw [crypt_fst, crypt_fst]
    refine ⟨?record, ?buffer, ?growing, fun h hc => ?hash, fun e hc => ?token⟩
    case record => rw [crypt_fst, crypt_fst]
    case buffer => rw [cryptIn_fst hbuffer, crypt_fst]
    case growing => rw [cryptGrowing_fst, crypt_fst]
    case hash => exact cryptText_of_ok (hsame.trans hc)
    case token =>
      have htoken := outputText_of_error hc
      refine ⟨?_, htoken⟩
      rw [htoken]
      exact cryptText_of_error (hsame.trans hc)

/-- A buffer full of other bytes makes no difference to an NT hash, an empty one grows, and one of
    two bytes has room for half a token. -/
theorem entry_points_agree_cases :
    (cryptIn (List.replicate size 0xaa) [] (Bytes.ascii "$3$")).1 =
        .ok (Bytes.ascii "$3$$" ++ Bytes.ascii "31d6cfe0d16ae931b73c59d7e0c089c0") ∧
      (Session.start.crypt [] (Bytes.ascii "$3$")).1 =
        Bytes.ascii "$3$$" ++ Bytes.ascii "31d6cfe0d16ae931b73c59d7e0c089c0" ∧
      (Session.start.crypt [] (Bytes.ascii "*0")).1 =
        (zero.crypt [] (Bytes.ascii "*0")).2.outputText ∧
      (∃ output : Bytes, output.length = 384 ∧
        (cryptGrowing [] [] (Bytes.ascii "*0")).2 = output ++ List.replicate (size - 384) 0) ∧
      cryptIn [0xaa, 0xaa] [] (Bytes.ascii "*0") = (.error .range, Bytes.ascii "*" ++ [0]) := by
  have hrefused : (zero.crypt [] (Bytes.ascii "*0")).1 = .error .invalid := by
    rw [crypt_fst]
    decide
  have hlen : size ≤ (List.replicate size (0xaa : UInt8)).length :=
    Nat.le_of_eq List.length_replicate.symm
  obtain ⟨-, hbuffer, -, htext, -⟩ :=
    (entry_points_agree [] (Bytes.ascii "$3$")).1 zero zero .start _ [] hlen
  obtain ⟨-, -, -, -, htoken⟩ :=
    (entry_points_agree [] (Bytes.ascii "*0")).1 zero zero .start _ [] hlen
  obtain ⟨-, -, -, -, hshort⟩ := entry_points_agree [] (Bytes.ascii "*0")
  exact ⟨hbuffer.trans crypt_empty, htext _ crypt_empty, (htoken _ hrefused).1,
    (hshort [] (by decide)).1, (hshort [0xaa, 0xaa] (by decide)).2⟩

end Workspace

end PassHash
