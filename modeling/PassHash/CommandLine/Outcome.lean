import PassHash.CommandLine.Arguments
import PassHash.CommandLine.Preferences
import PassHash.FreshSetting
import PassHash.Text.Quoted
import PassHash.Verdict
import PassHash.Workspace

/-!
# Outcomes

What a command line does: an exit code, what it prints, and one line on what went wrong. Everything
it depends on is in its surroundings, so that an outcome is a value.

## Contents

- `Surroundings`: files, standard input and a source of random bytes
- `Phrase.ofInput?`: the phrase on standard input
- `Outcome`: exit code, output and error
- `Invocation.outcome`, `outcome`: the outcome of a request and of a command line

## Main statements

- `Phrase.ofInput?_append`: only the first line of the input counts
-/

namespace PassHash

namespace CommandLine

/-- What a command line depends on besides its words. -/
structure Surroundings where
  file : (path : String) → Source
  input : Bytes
  entropy : Entropy

/-- What a command line does. -/
inductive Outcome
  /-- The request is carried out. -/
  | done (output : Bytes)
  /-- The request fails, after some output. -/
  | failed (output : Bytes) (error : String)
  /-- There is no request. -/
  | refused (r : Refusal)

namespace Outcome

/-- The exit code: zero for success, one for a failure, two for a wrong usage. -/
def exitCode : Outcome → Nat
  | done _ => 0
  | failed _ _ => 1
  | refused r => r.exitCode

/-- What is printed on standard output. -/
def output : Outcome → Bytes
  | done output => output
  | failed output _ => output
  | refused _ => []

/-- The failure. -/
def error? : Outcome → Option String
  | failed _ error => some error
  | _ => none

/-- The outcome of a step that may fail, or of what comes after it. -/
def after {α : Type} (step : Except String α) (next : α → Outcome) : Outcome :=
  match step with
  | .ok a => next a
  | .error e => failed [] e

end Outcome

/-- A text and a line end. -/
def line (text : Bytes) : Bytes := text ++ [0x0a]

/-! ## Phrases -/

namespace Phrase

/-- Whether a byte ends a line. -/
def isLineEnd (c : UInt8) : Bool := c == 0x0a || c == 0x0d

/-- The first line of an input, without carriage returns at its end. It has to be a text. -/
def ofInput? (input : Bytes) : Option Bytes :=
  let first := input.takeWhile (· != 0x0a)
  if Bytes.isUtf8 first then some (first.reverse.dropWhile isLineEnd).reverse else none

/-- The phrase of a request, or the one on standard input. -/
def get (phrase? : Option String) (input : Bytes) : Except String Bytes :=
  match phrase? with
  | some phrase => .ok (Bytes.ofString phrase)
  | none =>
    match ofInput? input with
    | some phrase => .ok phrase
    | none => .error "reading passphrase from stdin"

theorem ofInput?_append {first rest : Bytes} (h : 0x0a ∉ first) :
    ofInput? (first ++ 0x0a :: rest) = ofInput? first := by
  have keep (c : UInt8) (hc : c ∈ first) : (c != 0x0a) = true := by
    simpa using fun e : c = 0x0a => h (e ▸ hc)
  have split (more : Bytes) : (first ++ more).takeWhile (· != 0x0a) =
      first ++ more.takeWhile (· != 0x0a) := List.takeWhile_append_of_pos keep
  have whole : first.takeWhile (· != 0x0a) = first := by simpa using split []
  simp only [ofInput?, split, whole]
  simp

end Phrase

/-! ## Commands -/

/-- A fresh setting. What the request leaves open is taken from the preferences. -/
def freshSetting (source : Entropy) (prefs : Preferences) (lead? : Option Bytes)
    (count? : Option Nat) : Except String Bytes :=
  let lead? := lead?.or prefs.lead?
  match FreshSetting.generate source ⟨lead?, count?.getD prefs.count, none⟩ with
  | .ok setting => .ok setting
  | .error _ =>
    let asked := (lead?.map Bytes.shown).getD "preferred method"
    .error ("gensalt for " ++ asked)

/-- Hashing: the hash, or the failure token and an error. -/
def hashOutcome (phrase setting : Bytes) : Outcome :=
  let text := crypt phrase setting
  if Token.isToken text then
    .failed (line text) ("hashing failed for setting " ++ Text.quote setting.shown)
  else .done (line text)

/-- Checking: `ok` if the hash is the stored one. -/
def verifyOutcome (phrase stored : Bytes) : Outcome :=
  let text := crypt phrase stored
  if Token.isToken text then .failed [] ("not a usable hash: " ++ Text.quote stored.shown)
  else if text = stored then .done (line (Bytes.ascii "ok"))
  else .failed (line (Bytes.ascii "mismatch")) "passphrase does not match"

/-- The report on a setting. -/
def verdictValue (setting : Bytes) (v : Verdict) : Json.Value :=
  .ofMembers [("setting", .ofText setting), ("verdict", .ofText (Bytes.ascii v.name)),
    ("code", .ofNat v.code)]

/-- Judging: the verdict, which is an error if the setting is invalid. -/
def checksaltOutcome (setting : Bytes) (json : Bool) : Outcome :=
  let v := Verdict.ofSetting setting
  let output := line (if json then (verdictValue setting v).compact else Bytes.ascii v.name)
  if v = .invalid then .failed output ("invalid setting " ++ Text.quote setting.shown)
  else .done output

/-- A text with spaces up to a width. -/
def padTo (width : Nat) (text : Bytes) : Bytes :=
  text ++ List.replicate (width - text.length) 0x20

/-- A method in the list of methods. -/
def methodLine (m : Method) : Bytes :=
  let tag := if m.tag = [] then Bytes.ascii "(none)" else m.tag
  let strength := Bytes.ascii (if m.isStrong then "strong" else "legacy")
  line (padTo 12 tag ++ [0x20] ++ padTo 14 (Bytes.ascii m.name) ++ [0x20] ++ strength)

/-- A method in the list of methods as a document. -/
def methodValue (m : Method) : Json.Value :=
  .ofMembers [("prefix", .ofText m.tag), ("name", .ofText (Bytes.ascii m.name)),
    ("strong", .bool m.isStrong)]

/-- The list of methods. -/
def methodsOutcome (json : Bool) : Outcome :=
  .done (if json then line (Json.Value.list (Method.all.map methodValue)).pretty
    else Method.all.flatMap methodLine)

/-! ## Requests -/

namespace Command

/-- Whether the phrase is expected on standard input. -/
def readsInput : Command → Bool
  | hash _ phrase? => phrase?.isNone
  | verify _ phrase? => phrase?.isNone
  | _ => false

/-- The outcome of a command. -/
def outcome (env : Surroundings) (prefs : Preferences) : Command → Outcome
  | hash setting? phrase? =>
    -- the setting comes first: where both fail, its error is the one shown
    let setting := match setting? with
      | some setting => .ok (Bytes.ofString setting)
      | none => freshSetting env.entropy prefs none none
    .after setting fun setting =>
      .after (Phrase.get phrase? env.input) fun phrase => hashOutcome phrase setting
  | verify stored phrase? =>
    .after (Phrase.get phrase? env.input) fun phrase => verifyOutcome phrase (Bytes.ofString stored)
  | gensalt lead? count? =>
    .after (freshSetting env.entropy prefs (lead?.map Bytes.ofString) count?) fun setting =>
      .done (line setting)
  | checksalt setting json => checksaltOutcome (Bytes.ofString setting) json
  | methods json => methodsOutcome json

end Command

namespace Invocation

/-- The preferences that a request goes by. -/
def preferences (env : Surroundings) (r : Invocation) : Except String Preferences :=
  match r.config? with
  | some path => (env.file path).preferences path
  | none => .ok .default

/-- The outcome of a request. -/
def outcome (env : Surroundings) (r : Invocation) : Outcome :=
  .after (r.preferences env) fun prefs => r.command.outcome env prefs

end Invocation

/-- The outcome of a command line. -/
def outcome (env : Surroundings) (words : List String) : Outcome :=
  match Invocation.ofWords words with
  | .ok r => r.outcome env
  | .error refusal => .refused refusal

end CommandLine

end PassHash
