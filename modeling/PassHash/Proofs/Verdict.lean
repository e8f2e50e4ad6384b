import PassHash.Proofs.Verification
import PassHash.Verdict

/-!
# Verdicts on Hashes

A verdict depends on the method that a setting selects, and on nothing else of the setting. A hash
selects the method of its setting, so both are judged alike; and what is judged invalid has no
hash.

## Main statements

- `Verdict.ofSetting_of_method`: the verdict on a setting of a known method
- `Workspace.verdict_crypt`: the verdicts on a hash and on its setting
-/

namespace PassHash

namespace Verdict

variable {setting : Bytes} {m : Method}

/-- The verdict on the settings of a method. -/
def ofMethod (m : Method) : Verdict := if m.isStrong then ok else methodLegacy

theorem ofMethod_ne_invalid (m : Method) : ofMethod m ≠ invalid := by
  unfold ofMethod
  split <;> decide

/-- A setting without forbidden characters is judged by its method. -/
theorem ofSetting_of_method (hne : setting.beforeNul ≠ [])
    (hclean : Setting.hasForbidden setting.beforeNul = false)
    (hm : Method.ofSetting? setting.beforeNul = some m) : ofSetting setting = ofMethod m := by
  have hvalid : ¬(setting.beforeNul = [] ∨ Setting.hasForbidden setting.beforeNul = true) := by
    rw [hclean]
    rintro (h | h)
    · exact hne h
    · cases h
  rw [ofSetting, if_neg hvalid, hm, ofMethod]

end Verdict

namespace Workspace

variable {ws : Workspace} {phrase setting h : Bytes}

/-- A setting with a hash is judged by the one method that accepts it, and so is the hash. -/
theorem exists_method_verdict (hc : (ws.crypt phrase setting).1 = .ok h) :
    ∃ m : Method, m.accepts setting.beforeNul = true ∧ m.accepts h = true ∧
      Verdict.ofSetting setting = .ofMethod m ∧ Verdict.ofSetting h = .ofMethod m := by
  obtain ⟨-, hforbidden, m, hm, hh⟩ := crypt_eq_ok_iff.1 hc
  have hclean := hasForbidden_of_crypt_eq_ok hc
  have hself : h.beforeNul = h := Setting.beforeNul_of_hasForbidden hclean
  have haccepts := Method.ofSetting?_eq_some_iff.1 hm
  have hselects := Method.ofSetting?_of_hash haccepts hh
  refine ⟨m, haccepts, Method.ofSetting?_eq_some_iff.1 hselects, ?setting, ?hash⟩
  case setting =>
    exact Verdict.ofSetting_of_method (Method.ne_nil_of_hash haccepts hh) hforbidden hm
  case hash =>
    rw [← hself] at hclean hselects
    refine Verdict.ofSetting_of_method ?_ hclean hselects
    rw [hself]
    exact ne_nil_of_crypt_eq_ok hc

/-- What is judged invalid has no hash. -/
theorem crypt_eq_error_of_invalid (hv : Verdict.ofSetting setting = .invalid) :
    ∃ e, (ws.crypt phrase setting).1 = .error e := by
  cases hc : (ws.crypt phrase setting).1 with
  | error e => exact ⟨e, rfl⟩
  | ok h =>
    obtain ⟨m, -, -, hsetting, -⟩ := exists_method_verdict hc
    rw [hsetting] at hv
    exact absurd hv (Verdict.ofMethod_ne_invalid m)

/-- At most one method accepts a setting, whatever their order. A setting with a hash is not
    invalid; one method alone accepts it, and this one alone accepts the hash; and both are judged
    alike. So an invalid setting has no hash. -/
theorem verdict_crypt (ws : Workspace) (phrase setting : Bytes) :
    (∀ s : Bytes, (Method.all.filter (·.accepts s)).length ≤ 1) ∧
    (∀ (table : List Method) (s : Bytes), table.Perm Method.all →
      table.find? (·.accepts s) = Method.ofSetting? s) ∧
    (∀ h, (ws.crypt phrase setting).1 = .ok h →
      Verdict.ofSetting setting ≠ .invalid ∧
      (∃ m, Method.all.filter (·.accepts h) = [m] ∧
        Method.all.filter (·.accepts setting.beforeNul) = [m]) ∧
      Verdict.ofSetting h = Verdict.ofSetting setting) ∧
    (Verdict.ofSetting setting = .invalid → ∃ e, (ws.crypt phrase setting).1 = .error e) := by
  refine ⟨?unique, ?order, ?hash, crypt_eq_error_of_invalid⟩
  case unique =>
    intro s
    rw [Method.filter_accepts_eq]
    exact Option.length_toList_le
  case order =>
    intro table s hperm
    exact Method.find?_perm hperm s
  case hash =>
    intro h hc
    obtain ⟨m, hsetting, hhash, hverdict, hverdict'⟩ := exists_method_verdict hc
    refine ⟨?_, ⟨m, Method.filter_accepts hhash, Method.filter_accepts hsetting⟩, ?_⟩
    · rw [hverdict]
      exact Verdict.ofMethod_ne_invalid m
    · rw [hverdict, hverdict']

/-- Two salt characters select traditional DES, whichever method is tried first, and so does the hash
    of a phrase under them, which is judged as they are. A setting that looks like a token is invalid
    and has no hash. -/
theorem verdict_crypt_unmarked :
    Method.all.reverse.find? (·.accepts (Bytes.ascii "ab")) = some .descrypt ∧
      (∃ h, (zero.crypt (Bytes.ascii "password1") (Bytes.ascii "ab")).1 = .ok h ∧
        Method.all.filter (·.accepts h) = [.descrypt] ∧ Verdict.ofSetting h = .methodLegacy) ∧
      Verdict.ofSetting (Bytes.ascii "*0") = .invalid ∧
      ∃ e, (zero.crypt (Bytes.ascii "password1") (Bytes.ascii "*0")).1 = .error e := by
  have hab : Bytes.ascii "ab" = [Alphabet.crypt.char 38, Alphabet.crypt.char 39] := by decide
  have husable : Descrypt.layout.Usable Descrypt.hash Method.room (Bytes.ascii "ab") :=
    hab ▸ Descrypt.usable_chars 38 39
  obtain ⟨h, hh⟩ : ∃ h, Descrypt.hash Method.room (Bytes.ascii "password1") (Bytes.ascii "ab") =
    .ok h := husable.hashes (by decide)
  have hc : (zero.crypt (Bytes.ascii "password1") (Bytes.ascii "ab")).1 = .ok h :=
    crypt_eq_ok_iff.2 ⟨by decide, by decide, .descrypt, by decide, hh⟩
  have hlegacy : Verdict.ofSetting (Bytes.ascii "ab") = .methodLegacy := by decide
  have hinvalid : Verdict.ofSetting (Bytes.ascii "*0") = .invalid := by decide
  obtain ⟨-, horder, hhash, -⟩ := verdict_crypt zero (Bytes.ascii "password1") (Bytes.ascii "ab")
  obtain ⟨-, ⟨m, haccepts, hsetting⟩, hverdict⟩ := hhash h hc
  have hmethod : Method.all.filter (·.accepts (Bytes.ascii "ab").beforeNul) = [.descrypt] := by
    decide
  refine ⟨?order, ⟨h, hc, ?method, hverdict.trans hlegacy⟩, hinvalid,
    (verdict_crypt zero (Bytes.ascii "password1") (Bytes.ascii "*0")).2.2.2 hinvalid⟩
  case order =>
    rw [horder _ _ Method.all.reverse_perm]
    decide
  case method => rw [haccepts, ← hsetting, hmethod]

end Workspace

end PassHash
