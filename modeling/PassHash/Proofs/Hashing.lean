import PassHash.Proofs.Method
import PassHash.Workspace

/-!
# Laws of Hashing

What a call through a workspace returns does not depend on what the workspace held. A hash comes
from the method that the setting selects, is made of permitted characters only, and stands in the
output with its terminator, so reading it back never fails. A refused call leaves the failure token
there and nothing else.

## Main statements

- `Hashing.text_eq_ok_iff`: when there is a hash, and which
- `Hashing.run_of_text_eq_ok`, `Hashing.run_of_text_eq_error`: result and output area of a call
- `Workspace.crypt_eq_ok_iff`: the same for a call through a workspace
- `Workspace.hash_of_crypt_eq_ok`: which method made a hash, and from what
-/

namespace PassHash

namespace Hashing

variable {phrase setting setting' h : Bytes} {m : Method}

/-! ## Texts -/

theorem text_eq_ok_iff : text 384 phrase setting = .ok h ↔
    phrase.length ≤ maxPhrase ∧ Setting.hasForbidden setting = false ∧
      ∃ m, Method.ofSetting? setting = some m ∧ m.hash Method.room phrase setting = .ok h := by
  simp only [text, Checks.need_bind_eq_ok_iff, Checks.unlessInvalid_bind_eq_ok_iff,
    Checks.orInvalid_bind_eq_ok_iff, Bool.not_eq_true']
  rfl

/-- A phrase and a setting that pass the checks are left to the method. -/
theorem text_eq_hash (hphrase : phrase.length ≤ maxPhrase)
    (hs : Setting.hasForbidden setting = false) (hm : Method.ofSetting? setting = some m) :
    text 384 phrase setting = m.hash Method.room phrase setting := by
  rw [text, Room.need, if_pos hphrase, hs, hm]
  rfl

theorem text_eq_range (hphrase : maxPhrase < phrase.length) :
    text 384 phrase setting = .error .range := by
  rw [text, Room.need, if_neg (Nat.not_le_of_lt hphrase)]
  rfl

/-- A hash has no forbidden characters, is not empty, and fits with its terminator. -/
theorem hasForbidden_of_text_eq_ok (ht : text 384 phrase setting = .ok h) :
    Setting.hasForbidden h = false ∧ h ≠ [] ∧ h.length + 1 ≤ 384 := by
  obtain ⟨-, hs, m, -, hm⟩ := text_eq_ok_iff.1 ht
  exact ⟨m.layout_describes.hasForbidden hs hm, m.layout_describes.ne_nil hm,
    (m.layout_describes.shape hm).1⟩

/-- Settings of one method which the method hashes alike are hashed alike. -/
theorem text_congr (hs : Setting.hasForbidden setting = false)
    (hs' : Setting.hasForbidden setting' = false) (hm : Method.ofSetting? setting = some m)
    (hm' : Method.ofSetting? setting' = some m)
    (hh : m.hash Method.room phrase setting = m.hash Method.room phrase setting') :
    text 384 phrase setting = text 384 phrase setting' := by
  have hroom : (⟨384, scratchSize⟩ : Room) = Method.room := rfl
  simp only [text, hs, hs', hm, hm', Failure.orInvalid, bind, Except.bind, hroom, hh]

/-! ## Output areas -/

theorem read_store {area text : Bytes} (htext : Setting.hasForbidden text = false) :
    read (Area.store area text) = .ok text := by
  simp only [read, Area.beforeNul_store (Setting.zero_notMem htext)]
  rw [if_pos (Setting.isUtf8_of_hasForbidden htext)]

/-- A text that fits is stored. -/
theorem settle_ok {area text : Bytes} (hlen : text.length + 1 ≤ area.length) :
    Area.settle area (.ok text) = (.ok text, Area.store area text) := by
  have hcommit : Area.commit area text = .ok (Area.store area text) :=
    Area.commit_eq_ok_iff.2 ⟨hlen, rfl⟩
  simp only [Area.settle, hcommit]

theorem run_of_text_eq_ok {area : Bytes} (harea : area.length = 384)
    (ht : text 384 phrase.beforeNul setting.beforeNul = .ok h) :
    run area phrase setting = (.ok h, Area.store (Token.stamp setting.beforeNul area) h) := by
  obtain ⟨hclean, -, hlen⟩ := hasForbidden_of_text_eq_ok ht
  have hstored : Area.settle (Token.stamp setting.beforeNul area) (.ok h) =
      (.ok h, Area.store (Token.stamp setting.beforeNul area) h) := by
    apply settle_ok
    rw [Token.length_stamp, harea]
    exact hlen
  simp only [run, harea, ht, hstored, Except.bind, read_store hclean]

theorem run_of_text_eq_error {area : Bytes} (harea : area.length = 384) {e : Failure}
    (ht : text 384 phrase.beforeNul setting.beforeNul = .error e) :
    run area phrase setting = (.error e, Token.stamp setting.beforeNul area) := by
  simp only [run, harea, ht, Area.settle, Except.bind]

end Hashing

/-! ## Workspaces -/

namespace Workspace

variable {ws : Workspace} {phrase setting h : Bytes} {m : Method}

/-- What a call returns does not depend on the workspace. -/
theorem crypt_fst (ws : Workspace) (phrase setting : Bytes) :
    (ws.crypt phrase setting).1 = Hashing.text 384 phrase.beforeNul setting.beforeNul := by
  show (Hashing.run ws.output.bytes phrase setting).1 = _
  cases ht : Hashing.text 384 phrase.beforeNul setting.beforeNul with
  | ok h => rw [Hashing.run_of_text_eq_ok ws.output.length_bytes ht]
  | error e => rw [Hashing.run_of_text_eq_error ws.output.length_bytes ht]

theorem crypt_eq_ok_iff : (ws.crypt phrase setting).1 = .ok h ↔
    phrase.beforeNul.length ≤ Hashing.maxPhrase ∧
      Setting.hasForbidden setting.beforeNul = false ∧
      ∃ m, Method.ofSetting? setting.beforeNul = some m ∧
        m.hash Method.room phrase.beforeNul setting.beforeNul = .ok h := by
  rw [crypt_fst, Hashing.text_eq_ok_iff]

/-- A hash is made by the method that the setting selects as it is given. -/
theorem exists_method_of_crypt_eq_ok (hc : (ws.crypt phrase setting).1 = .ok h) :
    ∃ m, Method.ofSetting? setting = some m ∧ m.accepts setting.beforeNul = true ∧
      m.hash Method.room phrase.beforeNul setting.beforeNul = .ok h := by
  obtain ⟨-, -, m, hm, hh⟩ := crypt_eq_ok_iff.1 hc
  have ha := Method.ofSetting?_eq_some_iff.1 hm
  -- the method is selected by the text before the terminator, which starts the setting
  have hpre : setting.beforeNul <+: setting := List.takeWhile_prefix _
  exact ⟨m, Method.ofSetting?_of_prefix ha (Method.ne_nil_of_hash ha hh) hpre, ha, hh⟩

theorem hash_of_crypt_eq_ok (hc : (ws.crypt phrase setting).1 = .ok h)
    (hm : Method.ofSetting? setting = some m) : m.accepts setting.beforeNul = true ∧
      m.hash Method.room phrase.beforeNul setting.beforeNul = .ok h := by
  obtain ⟨m', hm', ha, hh⟩ := exists_method_of_crypt_eq_ok hc
  rw [hm, Option.some.injEq] at hm'
  subst hm'
  exact ⟨ha, hh⟩

theorem hasForbidden_of_crypt_eq_ok (hc : (ws.crypt phrase setting).1 = .ok h) :
    Setting.hasForbidden h = false := by
  rw [crypt_fst] at hc
  exact (Hashing.hasForbidden_of_text_eq_ok hc).1

theorem ne_nil_of_crypt_eq_ok (hc : (ws.crypt phrase setting).1 = .ok h) : h ≠ [] := by
  rw [crypt_fst] at hc
  exact (Hashing.hasForbidden_of_text_eq_ok hc).2.1

/-- A finished hash stands at the start of the output. -/
theorem output_of_ok (hc : (ws.crypt phrase setting).1 = .ok h) :
    (ws.crypt phrase setting).2.output.bytes =
      Area.store (Token.stamp setting.beforeNul ws.output.bytes) h := by
  rw [crypt_fst] at hc
  show (Hashing.run ws.output.bytes phrase setting).2 = _
  rw [Hashing.run_of_text_eq_ok ws.output.length_bytes hc]

/-- After a refusal the output holds the failure token. -/
theorem output_of_error {e : Failure} (hc : (ws.crypt phrase setting).1 = .error e) :
    (ws.crypt phrase setting).2.output.bytes =
      Token.stamp setting.beforeNul ws.output.bytes := by
  rw [crypt_fst] at hc
  show (Hashing.run ws.output.bytes phrase setting).2 = _
  rw [Hashing.run_of_text_eq_error ws.output.length_bytes hc]

/-- The NT hash of the empty phrase. -/
theorem crypt_empty : (zero.crypt [] (Bytes.ascii "$3$")).1 =
    .ok (Bytes.ascii "$3$$" ++ Bytes.ascii "31d6cfe0d16ae931b73c59d7e0c089c0") :=
  crypt_eq_ok_iff.2 ⟨by decide, by decide, .ntHash, by decide,
    NtHash.hash_nil (by decide) (by decide)⟩

/-- Every phrase of permitted length has a hash under a count with leading zeros, which the hash does
    not repeat. -/
theorem exists_crypt_leadingZeros (ws : Workspace) (phrase : Bytes)
    (hphrase : phrase.beforeNul.length ≤ Hashing.maxPhrase) : ∃ digest : Bytes,
      (ws.crypt phrase (Bytes.ascii "$sha1$007$salt")).1 =
        .ok (Bytes.ascii "$sha1$7$salt$" ++ digest) := by
  let s : Sha1Crypt.Setting := ⟨7, Bytes.ascii "salt"⟩
  have hread : Sha1Crypt.parse? (Bytes.ascii "$sha1$007$salt") = some s := by decide
  have htext : s.text = Bytes.ascii "$sha1$7$salt$" := by decide
  refine ⟨Base64.scatter Sha1Crypt.order (Sha1Crypt.digest s phrase.beforeNul),
    crypt_eq_ok_iff.2 ⟨hphrase, by decide, .sha1Crypt, by decide, ?_⟩⟩
  refine Sha1Crypt.hash_eq_ok_iff.2 ⟨by decide, by decide, s, hread, ?_, by rw [htext]⟩
  rw [List.length_append, Sha1Crypt.length_digest_text]
  decide

end Workspace

end PassHash
