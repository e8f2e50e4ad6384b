import PassHash.Proofs.Hashing

/-!
# Refused Calls

A refused call leaves the failure token in the output and every byte after it as it was. The token
is neither the setting that it answers nor a hash: it starts with a character that no hash contains.
So comparing what a call returns with a stored hash is safe, whether the call was refused or not.

## Main statements

- `Workspace.outputText_of_ok`, `Workspace.outputText_of_error`: what a reader of the output sees
- `Workspace.isToken_cryptText_iff`: a token is returned exactly for a refused call
- `crypt_refused_or_hashed`: what a call returns and leaves behind
-/

namespace PassHash

/-! ## Tokens -/

namespace Token

variable {setting area : Bytes}

/-- A token with its terminator takes three bytes of an area. -/
theorem stamp_eq (h : 3 ≤ area.length) :
    stamp setting area = text setting ++ 0 :: area.drop 3 := by
  have hsize : ofSize setting area.length = text setting ++ [0] := by
    match area, h with
    | _ :: _ :: _ :: _, _ => rfl
  rw [stamp, hsize, List.length_append, length_text, List.append_assoc]
  rfl

theorem isToken_text (setting : Bytes) : isToken (text setting) = true := by
  unfold text
  split <;> rfl

theorem isUtf8_text (setting : Bytes) : (text setting).isUtf8 = true := by
  apply Bytes.isUtf8_of_lt
  unfold text
  split <;> decide +kernel

end Token

namespace Setting

/-- A text without forbidden characters does not start like a token. -/
theorem head?_ne_star {s : Bytes} (hs : hasForbidden s = false) : s.head? ≠ some '*'.toUInt8 := by
  intro hstar
  have hforbidden : isForbidden '*'.toUInt8 = true := by decide
  rw [hasForbidden_eq_false_iff.1 hs _ (List.mem_of_head? hstar)] at hforbidden
  cases hforbidden

theorem isToken_eq_false {s : Bytes} (hne : s ≠ []) (hs : hasForbidden s = false) :
    Token.isToken s = false := by
  cases s with
  | nil => exact absurd rfl hne
  | cons c s =>
    have hzero : c ≠ 0 := by
      rintro rfl
      exact zero_notMem hs List.mem_cons_self
    have hstar : c ≠ '*'.toUInt8 := by
      rintro rfl
      exact head?_ne_star hs rfl
    simp [Token.isToken, hzero, hstar]

end Setting

/-! ## Outputs -/

namespace Workspace

variable {ws : Workspace} {phrase setting h : Bytes} {e : Failure}

/-- The output has room for a token with its terminator. -/
theorem three_le_length_output (ws : Workspace) : 3 ≤ ws.output.bytes.length := by
  rw [ws.output.length_bytes]
  decide

/-- A reader of the output sees the hash. -/
theorem outputText_of_ok (hc : (ws.crypt phrase setting).1 = .ok h) :
    (ws.crypt phrase setting).2.outputText = h := by
  have hclean := hasForbidden_of_crypt_eq_ok hc
  rw [outputText, output_of_ok hc, Area.beforeNul_store (Setting.zero_notMem hclean)]
  exact if_pos (Setting.isUtf8_of_hasForbidden hclean)

/-- A reader of the output sees the token. -/
theorem outputText_of_error (hc : (ws.crypt phrase setting).1 = .error e) :
    (ws.crypt phrase setting).2.outputText = Token.text setting.beforeNul := by
  rw [outputText, output_of_error hc, Token.beforeNul_stamp ws.three_le_length_output]
  exact if_pos (Token.isUtf8_text _)

theorem cryptText_of_ok (hc : (ws.crypt phrase setting).1 = .ok h) :
    (ws.cryptText phrase setting).1 = h := by
  -- the two calls are the same pair, taken apart
  rw [cryptText]
  split
  · next text after hr =>
    rw [hr] at hc
    exact Except.ok.inj hc
  · next e after hr =>
    rw [hr] at hc
    cases hc

theorem cryptText_of_error (hc : (ws.crypt phrase setting).1 = .error e) :
    (ws.cryptText phrase setting).1 = Token.text setting.beforeNul := by
  rw [← outputText_of_error hc, cryptText]
  split
  · next text after hr =>
    rw [hr] at hc
    cases hc
  · next e' after hr => rw [hr]

/-- What is returned is a token exactly for a refused call. -/
theorem isToken_cryptText_iff : Token.isToken (ws.cryptText phrase setting).1 = true ↔
    ∃ e, (ws.crypt phrase setting).1 = .error e := by
  cases hc : (ws.crypt phrase setting).1 with
  | ok h =>
    rw [cryptText_of_ok hc, Setting.isToken_eq_false (ne_nil_of_crypt_eq_ok hc)
      (hasForbidden_of_crypt_eq_ok hc)]
    constructor
    · intro hf
      cases hf
    · rintro ⟨e, he⟩
      cases he
  | error e =>
    rw [cryptText_of_error hc, Token.isToken_text]
    exact ⟨fun _ => ⟨e, rfl⟩, fun _ => rfl⟩

/-- A call that returns its own setting has hashed the phrase. -/
theorem crypt_eq_ok_of_cryptText_eq (hs : 0 ∉ setting)
    (ht : (ws.cryptText phrase setting).1 = setting) :
    (ws.crypt phrase setting).1 = .ok setting := by
  cases hc : (ws.crypt phrase setting).1 with
  | ok h =>
    rw [cryptText_of_ok hc] at ht
    rw [ht]
  | error e =>
    rw [cryptText_of_error hc, Bytes.beforeNul_eq_self hs] at ht
    exact absurd ht (Token.text_ne setting)

end Workspace

/-! ## Results -/

/-- A refused call leaves the token at the start of the output, and nothing else there changes; a
    hash is returned and left in the output, and never looks like a token. So what is returned
    equals the setting only if it is a hash, and is a token only if the call was refused. -/
theorem crypt_refused_or_hashed (ws : Workspace) (phrase setting : Bytes) :
    (∀ e, (ws.crypt phrase setting).1 = .error e →
      (ws.crypt phrase setting).2.output.bytes =
          Token.text setting.beforeNul ++ 0 :: ws.output.bytes.drop 3 ∧
        (ws.crypt phrase setting).2.outputText ≠ setting.beforeNul) ∧
    (∀ h, (ws.crypt phrase setting).1 = .ok h →
      (ws.crypt phrase setting).2.outputText = h ∧ h ≠ [] ∧
        Setting.hasForbidden h = false ∧ h.head? ≠ some '*'.toUInt8) ∧
    (0 ∉ setting → crypt phrase setting = setting →
      (ws.crypt phrase setting).1 = .ok setting) ∧
    (Token.isToken (crypt phrase setting) = true ↔
      ∃ e, (ws.crypt phrase setting).1 = .error e) := by
  -- what a call returns is the same in the workspace of zeros
  have hsame : (ws.crypt phrase setting).1 = (Workspace.zero.crypt phrase setting).1 := by
    rw [Workspace.crypt_fst, Workspace.crypt_fst]
  refine ⟨?refused, ?hashed, ?authenticated, ?token⟩
  case refused =>
    intro e hc
    constructor
    · rw [Workspace.output_of_error hc, Token.stamp_eq ws.three_le_length_output]
    · rw [Workspace.outputText_of_error hc]
      exact Token.text_ne _
  case hashed =>
    intro h hc
    have hclean := Workspace.hasForbidden_of_crypt_eq_ok hc
    exact ⟨Workspace.outputText_of_ok hc, Workspace.ne_nil_of_crypt_eq_ok hc, hclean,
      Setting.head?_ne_star hclean⟩
  case authenticated =>
    intro hs ht
    rw [hsame]
    exact Workspace.crypt_eq_ok_of_cryptText_eq hs ht
  case token =>
    rw [hsame]
    exact Workspace.isToken_cryptText_iff

/-- The setting `*0` is refused with `*1`, and an NT hash of the empty phrase authenticates it. -/
theorem crypt_refused_or_hashed_cases :
    (Workspace.zero.crypt [] (Bytes.ascii "*0")).2.outputText ≠ Bytes.ascii "*0" ∧
      (Workspace.zero.crypt [] (Bytes.ascii "$3$$31d6cfe0d16ae931b73c59d7e0c089c0")).1 =
        .ok (Bytes.ascii "$3$$31d6cfe0d16ae931b73c59d7e0c089c0") := by
  have hrefused : (Workspace.zero.crypt [] (Bytes.ascii "*0")).1 = .error .invalid := by
    rw [Workspace.crypt_fst]
    decide
  have hself : crypt [] (Bytes.ascii "$3$$31d6cfe0d16ae931b73c59d7e0c089c0") =
      Bytes.ascii "$3$$31d6cfe0d16ae931b73c59d7e0c089c0" := by
    apply Workspace.cryptText_of_ok
    rw [Workspace.crypt_fst]
    decide +kernel
  exact ⟨((crypt_refused_or_hashed _ _ _).1 _ hrefused).2,
    (crypt_refused_or_hashed _ _ _).2.2.1 (by decide) hself⟩

end PassHash
