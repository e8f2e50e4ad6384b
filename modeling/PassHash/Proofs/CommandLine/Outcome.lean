import PassHash.CommandLine.Outcome
import PassHash.Proofs.CommandLine.Arguments
import PassHash.Proofs.Refusal
import PassHash.Proofs.Verification

/-!
# Hashing and Checking from the Command Line

A phrase can be given as an option, ahead of the other words or behind them, or on the first line of
standard input, and it makes no difference how. Checking says whether the phrase has the stored hash
again, another one or none, and a hash that was printed is confirmed later.

## Contents

- `Phrase.IsLine`: phrases that a line of input can give
- `GivesPhrase`, `GivesOperand`: the ways to give a phrase, and a setting or a stored hash
- `Surroundings.ofInput`: surroundings that give nothing but an input

## Main statements

- `Phrase.ofInput?_of_isLine`, `Phrase.ofInput?_return`: a phrase is read back from its line
- `outcome_of_givesPhrase`, `outcome_congr_givesPhrase`: the outcome in terms of the phrase,
  however it is given
- `verifyOutcome_eq`, `hashOutcome_eq`: the outcomes in terms of the hash
- `exists_verify_of_hash`: a printed hash is confirmed
- `hash_verify_consistent`: what checking says, also of a printed hash, however the phrase is given
-/

namespace PassHash

namespace CommandLine

/-! ## Phrases on standard input -/

namespace Phrase

variable {phrase : Bytes}

/-- A phrase that comes back whole from a line of input: it has no line end in it, and does not end
    in what may belong to one. -/
structure IsLine (phrase : Bytes) : Prop where
  lineFeed_notMem : 0x0a ∉ phrase
  getLast?_ne_return : phrase.getLast? ≠ some 0x0d

namespace IsLine

theorem dropWhile_reverse (h : IsLine phrase) : phrase.reverse.dropWhile isLineEnd =
    phrase.reverse := by
  rcases List.eq_nil_or_concat phrase with rfl | ⟨front, c, rfl⟩
  · rfl
  · have hfeed : c ≠ 0x0a := by
      rintro rfl
      exact h.lineFeed_notMem (by simp)
    have hreturn : c ≠ 0x0d := by
      rintro rfl
      exact h.getLast?_ne_return (by simp)
    have hend : isLineEnd c = false := by simp [isLineEnd, hfeed, hreturn]
    rw [List.concat_eq_append, List.reverse_append, List.reverse_singleton, List.singleton_append,
      List.dropWhile_cons_of_neg (by simp [hend])]

end IsLine

theorem takeWhile_of_notMem {first : Bytes} (h : 0x0a ∉ first) :
    first.takeWhile (· != 0x0a) = first := by
  rw [List.takeWhile_eq_self_iff]
  intro c hc
  simpa using fun e : c = 0x0a => h (e ▸ hc)

theorem ofInput?_of_isLine (h : IsLine phrase) (htext : phrase.isUtf8 = true) :
    ofInput? phrase = some phrase := by
  simp only [ofInput?, takeWhile_of_notMem h.lineFeed_notMem]
  rw [if_pos htext, h.dropWhile_reverse, List.reverse_reverse]

/-- A carriage return at the end of the line does not count. -/
theorem ofInput?_return (h : IsLine phrase) (htext : phrase.isUtf8 = true) :
    ofInput? (phrase ++ [0x0d]) = some phrase := by
  have hfeed : 0x0a ∉ phrase ++ [0x0d] := by simpa using h.lineFeed_notMem
  have htext' : Bytes.isUtf8 (phrase ++ [0x0d]) = true :=
    Bytes.isUtf8_append htext (Bytes.isUtf8_of_lt (by simp))
  simp only [ofInput?, takeWhile_of_notMem hfeed]
  rw [if_pos htext', List.reverse_append, List.reverse_singleton, List.singleton_append,
    List.dropWhile_cons_of_pos (by decide), h.dropWhile_reverse, List.reverse_reverse]

end Phrase

/-! ## Ways to give a phrase -/

/-- The ways to give a phrase to a command with some other words: as an option ahead of them or
    behind, or on standard input, where the first line gives it, with either line end or at the end
    of the input. -/
inductive GivesPhrase (phrase : String) (others : List String) : List String → Bytes → Prop
  | ahead (input : Bytes) : GivesPhrase phrase others (phraseWord phrase :: others) input
  | behind (hend : "--" ∉ others) (input : Bytes) :
      GivesPhrase phrase others (others ++ [phraseWord phrase]) input
  | inputEnd (hline : Phrase.IsLine (Bytes.ofString phrase)) :
      GivesPhrase phrase others others (Bytes.ofString phrase)
  | lineFeed (hline : Phrase.IsLine (Bytes.ofString phrase)) (rest : Bytes) :
      GivesPhrase phrase others others (Bytes.ofString phrase ++ 0x0a :: rest)
  | returnLineFeed (hline : Phrase.IsLine (Bytes.ofString phrase)) (rest : Bytes) :
      GivesPhrase phrase others others (Bytes.ofString phrase ++ 0x0d :: 0x0a :: rest)

variable {env : Surroundings} {kind : CommandKind} {phrase text : String}
  {words others : List String}

/-- Either the option is among the words, or the phrase is read from the input. -/
theorem GivesPhrase.option_or_input (h : GivesPhrase phrase others words env.input) :
    words = phraseWord phrase :: others ∨ (words = others ++ [phraseWord phrase] ∧ "--" ∉ others) ∨
      (words = others ∧ Phrase.ofInput? env.input = some (Bytes.ofString phrase)) := by
  have htext := Bytes.isUtf8_ofString phrase
  generalize env.input = input at h ⊢
  cases h with
  | ahead => exact .inl rfl
  | behind hend => exact .inr (.inl ⟨rfl, hend⟩)
  | inputEnd hline => exact .inr (.inr ⟨rfl, Phrase.ofInput?_of_isLine hline htext⟩)
  | lineFeed hline rest =>
    refine .inr (.inr ⟨rfl, ?_⟩)
    rw [Phrase.ofInput?_append hline.lineFeed_notMem]
    exact Phrase.ofInput?_of_isLine hline htext
  | returnLineFeed hline rest =>
    refine .inr (.inr ⟨rfl, ?_⟩)
    have hfeed : 0x0a ∉ Bytes.ofString phrase ++ [0x0d] := by simpa using hline.lineFeed_notMem
    rw [← List.singleton_append, ← List.append_assoc, Phrase.ofInput?_append hfeed]
    exact Phrase.ofInput?_return hline htext

/-- A command without a phrase takes it from the input. -/
theorem Command.outcome_withPhrase {c : Command} (hc : c.phrase? = none)
    (hinput : Phrase.ofInput? env.input = some (Bytes.ofString phrase)) (prefs : Preferences) :
    (c.withPhrase phrase).outcome env prefs = c.outcome env prefs := by
  have hget : Phrase.get none env.input = .ok (Bytes.ofString phrase) := by
    rw [Phrase.get, hinput]
  cases c with
  | hash setting? phrase? =>
    cases hc
    simp only [withPhrase, outcome, hget]
    rfl
  | verify stored phrase? =>
    cases hc
    simp only [withPhrase, outcome, hget]
    rfl
  | _ => rfl

/-- The outcome of a command that takes a phrase is that of its other words with the phrase. -/
theorem outcome_of_givesPhrase (hk : kind.TakesPhrase) (hothers : Unphrased others)
    (hgives : GivesPhrase phrase others words env.input) :
    outcome env (kind.name :: words) =
      match Invocation.ofWords (kind.name :: others) with
      | .ok r => (r.withPhrase phrase).outcome env
      | .error refusal => .refused refusal := by
  rw [outcome]
  rcases hgives.option_or_input with rfl | ⟨rfl, hend⟩ | ⟨rfl, hinput⟩
  · rw [Invocation.ofWords_phrase_ahead hk hothers]
    cases Invocation.ofWords (kind.name :: others) <;> rfl
  · have hend' : ∀ word ∈ others, Argument.ofString word ≠ .terminator :=
      fun word hword h => hend (Argument.eq_of_ofString_eq_terminator h ▸ hword)
    rw [Invocation.ofWords_phrase_behind hk hothers hend']
    cases Invocation.ofWords (kind.name :: others) <;> rfl
  · cases hr : Invocation.ofWords (kind.name :: words) with
    | error refusal => rfl
    | ok r =>
      have hnone := Invocation.phrase?_of_unphrased hk hothers hr
      simp only [Invocation.outcome, Invocation.withPhrase,
        Command.outcome_withPhrase hnone hinput]
      rfl

/-- With its phrase a command does not look at the input. -/
theorem Invocation.outcome_withPhrase_congr (r : Invocation) (env : Surroundings)
    (phrase : String) (input input' : Bytes) :
    (r.withPhrase phrase).outcome { env with input := input } =
      (r.withPhrase phrase).outcome { env with input := input' } := by
  rcases r with ⟨config?, command⟩
  cases command <;> rfl

/-- It makes no difference how the phrase is given. -/
theorem outcome_congr_givesPhrase (hk : kind.TakesPhrase) (hothers : Unphrased others)
    {words' : List String} {input input' : Bytes} (hgives : GivesPhrase phrase others words input)
    (hgives' : GivesPhrase phrase others words' input') :
    outcome { env with input := input } (kind.name :: words) =
      outcome { env with input := input' } (kind.name :: words') := by
  rw [outcome_of_givesPhrase hk hothers hgives, outcome_of_givesPhrase hk hothers hgives']
  cases Invocation.ofWords (kind.name :: others) with
  | error refusal => rfl
  | ok r => exact r.outcome_withPhrase_congr env phrase input input'

/-! ## Operands -/

/-- The ways to give a setting or a stored hash: as a word, unless it starts like an option, or
    behind the two hyphens that end the options. -/
inductive GivesOperand (text : String) : List String → Prop
  | plain (hplain : text.toList.head? ≠ some '-') : GivesOperand text [text]
  | terminated : GivesOperand text ["--", text]

namespace GivesOperand

theorem unphrased (h : GivesOperand text words) : Unphrased words := by
  cases h with
  | plain hplain => exact .plain (Argument.ofString_eq_plain hplain)
  | terminated => exact .terminated [text]

/-- The operand is the one plain word that is read. -/
theorem read_eq_ok (h : GivesOperand text words) {f : Form} (hf : f.words = some 1) :
    f.read [] words = .ok ([.word text], []) := by
  have hword : f.addWord [] text = .ok [.word text] := by
    rw [Form.addWord, hf]
    rfl
  cases h with
  | plain hplain =>
    rw [Form.read, Argument.ofString_eq_plain hplain, hf, hword]
    rfl
  | terminated =>
    rw [Form.read_eq_cut]
    have hcut : f.cut ["--", text] = ([.word text], .ok []) := rfl
    rw [hcut, List.foldlM_cons]
    show (f.addWord [] text >>= _) >>= _ = _
    rw [hword]
    rfl

theorem ofWords_hash (h : GivesOperand text words) :
    Invocation.ofWords ("hash" :: words) = .ok ⟨none, .hash (some text) none⟩ := by
  rw [show "hash" = CommandKind.name .hash from rfl, Invocation.ofWords_cons_name,
    Invocation.ofKind_eq, h.read_eq_ok rfl]
  rfl

theorem ofWords_verify (h : GivesOperand text words) :
    Invocation.ofWords ("verify" :: words) = .ok ⟨none, .verify text none⟩ := by
  rw [show "verify" = CommandKind.name .verify from rfl, Invocation.ofWords_cons_name,
    Invocation.ofKind_eq, h.read_eq_ok rfl]
  rfl

end GivesOperand

/-- The outcome for a request that the other words make. -/
theorem outcome_of_ofWords_eq_ok (hk : kind.TakesPhrase) (hothers : Unphrased others)
    (hgives : GivesPhrase phrase others words env.input) {r : Invocation}
    (hr : Invocation.ofWords (kind.name :: others) = .ok r) :
    outcome env (kind.name :: words) = (r.withPhrase phrase).outcome env := by
  rw [outcome_of_givesPhrase hk hothers hgives, hr]

theorem outcome_hash (htext : GivesOperand text others)
    (hgives : GivesPhrase phrase others words env.input) : outcome env ("hash" :: words) =
      hashOutcome (Bytes.ofString phrase) (Bytes.ofString text) := by
  have hk : CommandKind.hash.TakesPhrase := .inl rfl
  exact outcome_of_ofWords_eq_ok hk htext.unphrased hgives htext.ofWords_hash

theorem outcome_verify (htext : GivesOperand text others)
    (hgives : GivesPhrase phrase others words env.input) : outcome env ("verify" :: words) =
      verifyOutcome (Bytes.ofString phrase) (Bytes.ofString text) := by
  have hk : CommandKind.verify.TakesPhrase := .inr rfl
  exact outcome_of_ofWords_eq_ok hk htext.unphrased hgives htext.ofWords_verify

/-! ## Outcomes -/

/-- A hash is never taken for a token, so the outcome shows whether there is one. -/
theorem ite_isToken_crypt (ws : Workspace) (phrase setting : Bytes)
    (refused hashed : Bytes → Outcome) :
    (if Token.isToken (crypt phrase setting) then refused (crypt phrase setting)
      else hashed (crypt phrase setting)) =
      match (ws.crypt phrase setting).1 with
      | .ok h => hashed h
      | .error _ => refused (Token.text setting.beforeNul) := by
  rw [Workspace.crypt_fst, ← Workspace.crypt_fst Workspace.zero, crypt]
  cases hc : (Workspace.zero.crypt phrase setting).1 with
  | ok h =>
    have htoken : ¬Token.isToken (Workspace.zero.cryptText phrase setting).1 = true := by
      rw [Workspace.isToken_cryptText_iff, hc]
      rintro ⟨e, ⟨⟩⟩
    rw [if_neg htoken, Workspace.cryptText_of_ok hc]
  | error e =>
    rw [if_pos (Workspace.isToken_cryptText_iff.2 ⟨e, hc⟩), Workspace.cryptText_of_error hc]

/-- Checking says whether the phrase has the stored hash again. -/
theorem verifyOutcome_eq (ws : Workspace) (phrase stored : Bytes) :
    verifyOutcome phrase stored =
      match (ws.crypt phrase stored).1 with
      | .ok h =>
        if h = stored then .done (line (Bytes.ascii "ok"))
        else .failed (line (Bytes.ascii "mismatch")) "passphrase does not match"
      | .error _ => .failed [] ("not a usable hash: " ++ Text.quote stored.shown) :=
  ite_isToken_crypt ws phrase stored
    (fun _ => .failed [] ("not a usable hash: " ++ Text.quote stored.shown))
    (fun h => if h = stored then .done (line (Bytes.ascii "ok"))
      else .failed (line (Bytes.ascii "mismatch")) "passphrase does not match")

/-- Hashing prints the hash, or a token. -/
theorem hashOutcome_eq (ws : Workspace) (phrase setting : Bytes) :
    hashOutcome phrase setting =
      match (ws.crypt phrase setting).1 with
      | .ok h => .done (line h)
      | .error _ => .failed (line (Token.text setting.beforeNul))
          ("hashing failed for setting " ++ Text.quote setting.shown) :=
  ite_isToken_crypt ws phrase setting
    (fun token => .failed (line token)
      ("hashing failed for setting " ++ Text.quote setting.shown))
    (fun h => .done (line h))

section Verify

variable {stored : Bytes} {ws : Workspace} {phrase : Bytes}

theorem verifyOutcome_ok_iff : ((verifyOutcome phrase stored).exitCode = 0 ∧
    (verifyOutcome phrase stored).output = line (Bytes.ascii "ok")) ↔
      (ws.crypt phrase stored).1 = .ok stored := by
  rw [verifyOutcome_eq ws]
  cases (ws.crypt phrase stored).1 with
  | error e => simp [Outcome.exitCode]
  | ok h => by_cases hh : h = stored <;> simp [hh, Outcome.exitCode, Outcome.output]

theorem verifyOutcome_mismatch_iff : ((verifyOutcome phrase stored).exitCode = 1 ∧
    (verifyOutcome phrase stored).output = line (Bytes.ascii "mismatch")) ↔
      ∃ h, h ≠ stored ∧ (ws.crypt phrase stored).1 = .ok h := by
  have hline : [] ≠ line (Bytes.ascii "mismatch") := by decide
  rw [verifyOutcome_eq ws]
  cases (ws.crypt phrase stored).1 with
  | error e => simp [Outcome.exitCode, Outcome.output, hline]
  | ok h => by_cases hh : h = stored <;> simp [hh, Outcome.exitCode, Outcome.output]

theorem verifyOutcome_refused_iff : ((verifyOutcome phrase stored).exitCode = 1 ∧
    (verifyOutcome phrase stored).output = []) ↔ ∃ e, (ws.crypt phrase stored).1 = .error e := by
  have hline : line (Bytes.ascii "mismatch") ≠ [] := by decide
  rw [verifyOutcome_eq ws]
  cases (ws.crypt phrase stored).1 with
  | error e => simp [Outcome.exitCode, Outcome.output]
  | ok h => by_cases hh : h = stored <;> simp [hh, Outcome.exitCode, Outcome.output, hline]

end Verify

/-- A printed hash is a word that does not start like an option, and is confirmed for its phrase. -/
theorem exists_verify_of_hash {phrase setting : Bytes}
    (hm : Method.ofSetting? setting ≠ some .scrypt)
    (hexit : (hashOutcome phrase setting).exitCode = 0) :
    ∃ hash : String, (hashOutcome phrase setting).output = line (Bytes.ofString hash) ∧
      hash.toList.head? ≠ some '-' ∧ (verifyOutcome phrase (Bytes.ofString hash)).exitCode = 0 := by
  rw [hashOutcome_eq Workspace.zero] at hexit ⊢
  cases hc : (Workspace.zero.crypt phrase setting).1 with
  | error e =>
    rw [hc] at hexit
    cases hexit
  | ok h =>
    have hclean := Workspace.hasForbidden_of_crypt_eq_ok hc
    obtain ⟨hash, rfl⟩ := Bytes.exists_ofString_eq (Setting.isUtf8_of_hasForbidden hclean)
    refine ⟨hash, rfl, ?plain, ?confirmed⟩
    case plain =>
      obtain ⟨m, -, ha, hh⟩ := Workspace.exists_method_of_crypt_eq_ok hc
      exact Bytes.head?_toList_ne_hyphen (Method.head?_ne_hyphen (Method.ofSetting?_of_hash ha hh))
    case confirmed =>
      have hagain : (Workspace.zero.crypt phrase (Bytes.ofString hash)).1 =
          .ok (Bytes.ofString hash) := by
        refine Workspace.crypt_hash_of_sizing hc fun m hsel hh => Method.sizing_hash ?_ hh
        rintro rfl
        exact hm hsel
      exact (verifyOutcome_ok_iff.2 hagain).1

/-- Checking exits with success and prints `ok` exactly if the phrase has the stored hash, prints
    `mismatch` exactly if it has another one, and prints nothing exactly if it has none. A hash that
    was printed is confirmed for its phrase, except with scrypt. And however the phrase is given,
    the outcome is the same, whatever else is on the command line. -/
theorem hash_verify_consistent :
    (∀ (env : Surroundings) (ws : Workspace) (phrase stored : String) (others words : List String),
      GivesOperand stored others → GivesPhrase phrase others words env.input →
        ((((outcome env ("verify" :: words)).exitCode = 0 ∧
            (outcome env ("verify" :: words)).output = line (Bytes.ascii "ok")) ↔
          (ws.crypt (Bytes.ofString phrase) (Bytes.ofString stored)).1 =
            .ok (Bytes.ofString stored)) ∧
        (((outcome env ("verify" :: words)).exitCode = 1 ∧
            (outcome env ("verify" :: words)).output = line (Bytes.ascii "mismatch")) ↔
          ∃ h, h ≠ Bytes.ofString stored ∧
            (ws.crypt (Bytes.ofString phrase) (Bytes.ofString stored)).1 = .ok h) ∧
        (((outcome env ("verify" :: words)).exitCode = 1 ∧
            (outcome env ("verify" :: words)).output = []) ↔
          ∃ e, (ws.crypt (Bytes.ofString phrase) (Bytes.ofString stored)).1 = .error e))) ∧
    (∀ (env : Surroundings) (phrase setting : String) (others words : List String),
      GivesOperand setting others → GivesPhrase phrase others words env.input →
      Method.ofSetting? (Bytes.ofString setting) ≠ some .scrypt →
      (outcome env ("hash" :: words)).exitCode = 0 →
        ∃ hash : String, (outcome env ("hash" :: words)).output = line (Bytes.ofString hash) ∧
          hash.toList.head? ≠ some '-' ∧
          ∀ (env' : Surroundings) (others' words' : List String),
            GivesOperand hash others' → GivesPhrase phrase others' words' env'.input →
              (outcome env' ("verify" :: words')).exitCode = 0) ∧
    (∀ (env : Surroundings) (kind : CommandKind) (phrase : String)
      (others words words' : List String) (input input' : Bytes),
      kind = .hash ∨ kind = .verify → Unphrased others →
      GivesPhrase phrase others words input → GivesPhrase phrase others words' input' →
        outcome { env with input := input } (kind.name :: words) =
          outcome { env with input := input' } (kind.name :: words')) := by
  refine ⟨?verify, ?hash, ?same⟩
  case verify =>
    intro env ws phrase stored others words hstored hgives
    rw [outcome_verify hstored hgives]
    exact ⟨verifyOutcome_ok_iff, verifyOutcome_mismatch_iff, verifyOutcome_refused_iff⟩
  case hash =>
    intro env phrase setting others words hsetting hgives hm hexit
    rw [outcome_hash hsetting hgives] at hexit ⊢
    obtain ⟨hash, hprinted, hplain, hconfirmed⟩ := exists_verify_of_hash hm hexit
    refine ⟨hash, hprinted, hplain, fun env' others' words' hhash hgives' => ?_⟩
    rw [outcome_verify hhash hgives']
    exact hconfirmed
  case same =>
    intro env kind phrase others words words' input input' hk hothers hgives hgives'
    exact outcome_congr_givesPhrase hk hothers hgives hgives'

/-- Surroundings that give nothing but an input. -/
def Surroundings.ofInput (input : Bytes) : Surroundings := ⟨fun _ => .absent, input, fun _ => none⟩

/-- An input whose first line is a phrase, with both characters of a line end and more after them. -/
def returnLineFeedInput : Bytes := Bytes.ofString "password" ++ [0x0d, 0x0a, 0x61]

/-- A phrase on such a line: its hash is confirmed as it is printed, and with the option in place of
    the line. The setting alone is a mismatch, what is no setting is refused, and hashing with the
    option has the same outcome. -/
theorem hash_verify_consistent_returnLineFeed :
    (∃ hash : String,
      (outcome (.ofInput returnLineFeedInput) ["hash", "--", "$sha1$007$salt"]).output =
        line (Bytes.ofString hash) ∧
      (outcome (.ofInput returnLineFeedInput) ["verify", hash]).output =
        line (Bytes.ascii "ok") ∧
      (outcome (.ofInput []) ["verify", hash, phraseWord "password"]).exitCode = 0) ∧
    (outcome (.ofInput returnLineFeedInput) ["verify", "$sha1$007$salt"]).output =
      line (Bytes.ascii "mismatch") ∧
    (outcome (.ofInput returnLineFeedInput) ["verify", "--", "*0"]).output = [] ∧
    outcome (.ofInput returnLineFeedInput) ["hash", "--config=preferences", "$sha1$007$salt"] =
      outcome (.ofInput [])
        ["hash", phraseWord "password", "--config=preferences", "$sha1$007$salt"] := by
  obtain ⟨hverify, hhash, hsame⟩ := hash_verify_consistent
  have hline : Phrase.IsLine (Bytes.ofString "password") := ⟨by decide, by decide⟩
  have hgives : ∀ others, GivesPhrase "password" others others returnLineFeedInput :=
    fun others => .returnLineFeed hline [0x61]
  have hsetting : Bytes.ofString "$sha1$007$salt" = Bytes.ascii "$sha1$007$salt" := by
    decide
  obtain ⟨digest, hc⟩ := Workspace.exists_crypt_leadingZeros Workspace.zero
    (Bytes.ofString "password") (by decide)
  rw [← hsetting] at hc
  refine ⟨?hash, ?mismatch, ?refused, ?same⟩
  case hash =>
    have hm : Method.ofSetting? (Bytes.ofString "$sha1$007$salt") ≠ some .scrypt := by
      decide
    have hexit : (outcome (.ofInput returnLineFeedInput)
        ["hash", "--", "$sha1$007$salt"]).exitCode = 0 := by
      rw [outcome_hash .terminated (hgives _), hashOutcome_eq Workspace.zero, hc]
      rfl
    obtain ⟨hash, hprinted, hplain, hconfirmed⟩ :=
      hhash _ "password" _ _ _ .terminated (hgives _) hm hexit
    obtain ⟨hok, hmismatch, hrefused⟩ :=
      hverify (.ofInput returnLineFeedInput) Workspace.zero "password" hash _ _ (.plain hplain)
        (hgives _)
    have hzero := hconfirmed (.ofInput returnLineFeedInput) _ _ (.plain hplain) (hgives _)
    refine ⟨hash, hprinted, ?_, hconfirmed _ _ _ (.plain hplain) (.behind ?_ [])⟩
    · -- the other two answers come with another exit code
      cases hagain : (Workspace.zero.crypt (Bytes.ofString "password") (Bytes.ofString hash)).1 with
      | error e =>
        have hone := (hrefused.2 ⟨e, hagain⟩).1
        rw [hzero] at hone
        cases hone
      | ok h =>
        by_cases hself : h = Bytes.ofString hash
        · exact (hok.2 (hself ▸ hagain)).2
        · have hone := (hmismatch.2 ⟨h, hself, hagain⟩).1
          rw [hzero] at hone
          cases hone
    · rw [List.mem_singleton]
      rintro rfl
      exact hplain rfl
  case mismatch =>
    refine ((hverify _ Workspace.zero "password" _ _ _ (.plain (by decide)) (hgives _)).2.1.2
      ⟨_, ?_, hc⟩).2
    -- the hash does not repeat the zeros
    have htake : (Bytes.ascii "$sha1$7$salt$" ++ digest).take 8 = Bytes.ascii "$sha1$7$" := by
      rw [List.take_append_of_le_length (by decide)]
      decide
    intro hself
    rw [hself] at htake
    revert htake
    decide
  case refused =>
    refine ((hverify _ Workspace.zero "password" "*0" _ _ .terminated (hgives _)).2.2.2
      ⟨.invalid, ?_⟩).2
    rw [Workspace.crypt_fst]
    decide
  case same =>
    have hconfig : Argument.ofString "--config=preferences" =
        .option "config" (some "preferences") := by decide
    have hothers : Unphrased ["--config=preferences", "$sha1$007$salt"] :=
      .cons (by simp [hconfig]) (.plain (by decide))
    exact hsame (.ofInput []) .hash "password" _ _ _ _ _ (.inl rfl) hothers (hgives _) (.ahead [])

end CommandLine

end PassHash
