import PassHash.Bytes

/-!
# Arguments

The words of a command line are options, flags and plain words. The first plain word is the command;
the path of the preferences may stand before or after it, everything else belongs after it. Words
are read from left to right, and the first one that is out of place, or that asks for help, settles
the matter; what is missing shows at the end only.

## Contents

- `Argument`: what a word looks like
- `Item`: options with their values, flags and plain words
- `Form`, `Form.read`: what may stand before or after a command, and its reading
- `Command`, `Invocation`: a request
- `Invocation.ofWords`: the request of a command line
- `Refusal`: why there is none

## Main statements

- `Argument.ofString_eq_plain`: a word that starts with no hyphen is plain
- `Argument.ofString_option`: a name and a value with `=` between them are an option
-/

namespace PassHash

namespace CommandLine

/-! ## Refusals -/

/-- Why a command line is not carried out. -/
inductive Refusal
  /-- It asks for help on the usage. -/
  | help
  /-- It asks for the version. -/
  | version
  | missingCommand
  | unknownCommand (word : String)
  | unknownOption (name : String)
  | repeatedOption (name : String)
  | missingValue (name : String)
  | needlessValue (name : String)
  | wrongValue (name value : String)
  | missingWord (what : String)
  | needlessWord (word : String)
  deriving DecidableEq, Repr

namespace Refusal

/-- One line for a reader. -/
def message : Refusal → String
  | help => "usage is shown"
  | version => "version is shown"
  | missingCommand => "a command is required"
  | unknownCommand word => "unknown command " ++ word
  | unknownOption name => "unknown option " ++ name
  | repeatedOption name => "--" ++ name ++ " is given more than once"
  | missingValue name => "--" ++ name ++ " requires a value"
  | needlessValue name => "--" ++ name ++ " takes no value"
  | wrongValue name value => "wrong value " ++ value ++ " for --" ++ name
  | missingWord what => what ++ " is required"
  | needlessWord word => "unexpected word " ++ word

/-- The exit code: zero when help is asked for, two for a wrong usage. -/
def exitCode : Refusal → Nat
  | help | version => 0
  | _ => 2

end Refusal

/-! ## Words -/

/-- What a word looks like. -/
inductive Argument
  /-- Two hyphens: everything after them is plain. -/
  | terminator
  /-- An option by name, with the value attached to it. -/
  | option (name : String) (value? : Option String)
  /-- An option by a letter, with whatever stands behind it. -/
  | letter (c : Char)
  | plain
  deriving DecidableEq, Repr

namespace Argument

/-- The option with the given text after its two hyphens. -/
def ofName (text : List Char) : Argument :=
  .option (String.ofList (text.takeWhile (· != '=')))
    (match text.dropWhile (· != '=') with
      | [] => none
      | _ :: value => some (String.ofList value))

/-- What a word looks like that has the given text after a hyphen; a hyphen alone is plain. -/
def ofHyphen : List Char → Argument
  | [] => .plain
  | ['-'] => .terminator
  | '-' :: text => ofName text
  | c :: _ => .letter c

/-- What a word looks like. -/
def ofString (word : String) : Argument :=
  match word.toList with
  | [] => .plain
  | c :: text => if c = '-' then ofHyphen text else .plain

theorem ofString_eq_plain {word : String} (h : word.toList.head? ≠ some '-') :
    ofString word = .plain := by
  unfold ofString
  split
  · rfl
  · next c text he =>
    rw [he] at h
    have hc : c ≠ '-' := fun e => h (congrArg some e)
    simp [hc]

theorem ofString_option (name value : String) (h : '=' ∉ name.toList) :
    ofString ("--" ++ name ++ "=" ++ value) = .option name (some value) := by
  have key : ("--" ++ name ++ "=" ++ value).toList =
      '-' :: '-' :: (name.toList ++ '=' :: value.toList) := by
    simp
  have take : (name.toList ++ '=' :: value.toList).takeWhile (· != '=') = name.toList := by
    rw [List.takeWhile_append_of_pos]
    · simp
    · intro c hc
      simpa using fun e : c = '=' => h (e ▸ hc)
  have drop : (name.toList ++ '=' :: value.toList).dropWhile (· != '=') = '=' :: value.toList := by
    rw [List.dropWhile_append_of_pos]
    · simp
    · intro c hc
      simpa using fun e : c = '=' => h (e ▸ hc)
  rw [ofString, key]
  cases hl : name.toList ++ '=' :: value.toList with
  | nil => simp at hl
  | cons c text =>
    rw [hl] at take drop
    simp only [ofHyphen, ofName, take, drop, String.ofList_toList, if_true]

end Argument

/-! ## Items -/

/-- A part of a command line. -/
inductive Item
  | option (name value : String)
  | flag (name : String)
  | word (text : String)
  deriving DecidableEq, Repr

/-- A number of 64 bits in decimal, with an optional plus sign. -/
def countOfString? (s : String) : Option Nat :=
  let digits := match s.toList with
    | '+' :: digits => digits
    | digits => digits
  if digits = [] ∨ !digits.all Char.isDigit then none
  else some (Bytes.decimalValue (digits.map Char.toUInt8)) |>.filter (· ≤ 0xffffffffffffffff)

namespace Item

/-- The name of an option or a flag. -/
def name? : Item → Option String
  | option name _ => some name
  | flag name => some name
  | word _ => none

/-- The text of a plain word. -/
def word? : Item → Option String
  | word text => some text
  | _ => none

/-- Whether a part has a name. -/
def isNamed (name : String) (item : Item) : Bool := item.name? == some name

/-- The value of an option. -/
def value? (name : String) (items : List Item) : Option String :=
  items.findSome? fun
    | option n v => if n = name then some v else none
    | _ => none

/-- Whether a flag is set. -/
def isSet (name : String) (items : List Item) : Bool := items.contains (.flag name)

/-- The plain words. -/
def words (items : List Item) : List String := items.filterMap word?

/-- Whether an option takes a value: a path is not empty, and a count is a number. -/
def takes (name value : String) : Bool :=
  match name with
  | "config" => value != ""
  | "count" => (countOfString? value).isSome
  | _ => true

end Item

/-! ## Forms -/

/-- What may stand before or after a command. -/
structure Form where
  /-- The names with a value. -/
  options : List String
  /-- The names without. -/
  flags : List String
  /-- How many plain words there may be; where there is no number, the first of them is the
      command. -/
  words : Option Nat

namespace Form

/-- The parts with a plain word after them. -/
def addWord (f : Form) (items : List Item) (text : String) : Except Refusal (List Item) :=
  if (Item.words items).length < f.words.getD 0 then .ok (items ++ [.word text])
  else .error (.needlessWord text)

/-- The parts with a flag after them, unless it asks for help. -/
def addFlag (f : Form) (items : List Item) (name : String) : Except Refusal (List Item) :=
  if !f.flags.contains name then .error (.unknownOption name)
  else if name = "help" then .error .help
  else if name = "version" then .error .version
  else if items.any (·.isNamed name) then .error (.repeatedOption name)
  else .ok (items ++ [.flag name])

/-- The parts with an option after them. -/
def addOption (f : Form) (items : List Item) (name value : String) :
    Except Refusal (List Item) :=
  if f.flags.contains name then .error (.needlessValue name)
  else if !f.options.contains name then .error (.unknownOption name)
  else if items.any (·.isNamed name) then .error (.repeatedOption name)
  else if !Item.takes name value then .error (.wrongValue name value)
  else .ok (items ++ [.option name value])

/-- The parts with those after them that the words give, and the words from the command on. The
    value of an option is attached to it or is the next word, which then has to be plain. -/
def read (f : Form) (items : List Item) : List String → Except Refusal (List Item × List String)
  | [] => .ok (items, [])
  | s :: rest =>
    match Argument.ofString s with
    | .plain =>
      if f.words.isNone then .ok (items, s :: rest)
      else do f.read (← f.addWord items s) rest
    | .terminator => do pure (← rest.foldlM f.addWord items, [])
    -- one letter decides, and none of them needs what stands behind it
    | .letter 'h' => do f.read (← f.addFlag items "help") rest
    | .letter 'V' => do f.read (← f.addFlag items "version") rest
    | .letter c => .error (.unknownOption (String.singleton c))
    | .option name (some value) => do f.read (← f.addOption items name value) rest
    | .option name none =>
      if !f.options.contains name then do f.read (← f.addFlag items name) rest
      else
        match rest with
        | [] => .error (.missingValue name)
        | v :: rest =>
          -- a value that looks like an option has to be attached
          if Argument.ofString v = .plain then do f.read (← f.addOption items name v) rest
          else .error (.missingValue name)

end Form

/-! ## Commands -/

/-- The commands. -/
inductive CommandKind
  | hash
  | verify
  | gensalt
  | checksalt
  | methods
  deriving DecidableEq, Repr

namespace CommandKind

/-- All commands. -/
def all : List CommandKind := [hash, verify, gensalt, checksalt, methods]

/-- The word for a command. -/
def name : CommandKind → String
  | hash => "hash"
  | verify => "verify"
  | gensalt => "gensalt"
  | checksalt => "checksalt"
  | methods => "methods"

/-- The command of a word. -/
def ofName? (name : String) : Option CommandKind := all.find? (·.name == name)

/-- What may stand after a command. -/
def form : CommandKind → Form
  | hash | verify => ⟨["config", "phrase"], ["help"], some 1⟩
  | gensalt => ⟨["config", "prefix", "count"], ["help"], some 0⟩
  | checksalt => ⟨["config"], ["json", "help"], some 1⟩
  | methods => ⟨["config"], ["json", "help"], some 0⟩

end CommandKind

/-- What may stand before a command. -/
def Form.outer : Form := ⟨["config"], ["help", "version"], none⟩

/-- What is to be done. -/
inductive Command
  /-- Hash a phrase under a setting, or under a fresh one. -/
  | hash (setting? phrase? : Option String)
  /-- Check a phrase against a stored hash. -/
  | verify (stored : String) (phrase? : Option String)
  /-- Make a fresh setting. -/
  | gensalt (lead? : Option String) (count? : Option Nat)
  /-- Judge a setting. -/
  | checksalt (setting : String) (json : Bool)
  /-- List the methods. -/
  | methods (json : Bool)
  deriving DecidableEq, Repr

namespace Command

/-- The first plain word, which has to be there. -/
def required (what : String) (items : List Item) : Except Refusal String :=
  match Item.words items with
  | [] => .error (.missingWord what)
  | text :: _ => .ok text

/-- The command of a kind, with what stands after it. -/
def ofItems (items : List Item) : CommandKind → Except Refusal Command
  | .hash => .ok (.hash (Item.words items).head? (Item.value? "phrase" items))
  | .verify => do pure (.verify (← required "a hash" items) (Item.value? "phrase" items))
  | .gensalt =>
    .ok (.gensalt (Item.value? "prefix" items) ((Item.value? "count" items).bind countOfString?))
  | .checksalt => do pure (.checksalt (← required "a setting" items) (Item.isSet "json" items))
  | .methods => .ok (.methods (Item.isSet "json" items))

end Command

/-! ## Requests -/

/-- What comes of the word `help` with the given words after it: at most one, a command or `help`
    once more. -/
def Refusal.ofHelp : List String → Refusal
  | [] => .help
  | topic :: more =>
    if topic ≠ "help" ∧ (CommandKind.ofName? topic).isNone then .unknownCommand topic
    else
      match more with
      | [] => .help
      | word :: _ => .unknownCommand word

/-- A request, and the path of the preferences that it goes by. -/
structure Invocation where
  config? : Option String
  command : Command
  deriving DecidableEq, Repr

namespace Invocation

/-- The request of a command with the given words after it. -/
def ofKind (outer : List Item) (kind : CommandKind) (words : List String) :
    Except Refusal Invocation := do
  let (items, _) ← kind.form.read [] words
  let command ← Command.ofItems items kind
  -- of two paths the one after the command counts
  pure ⟨(Item.value? "config" items).or (Item.value? "config" outer), command⟩

/-- The request of a command line. -/
def ofWords (words : List String) : Except Refusal Invocation := do
  let (outer, rest) ← Form.outer.read [] words
  match rest with
  | [] => throw .missingCommand
  | name :: rest =>
    match CommandKind.ofName? name with
    | some kind => ofKind outer kind rest
    | none => throw (if name = "help" then Refusal.ofHelp rest else .unknownCommand name)

end Invocation

end CommandLine

end PassHash
