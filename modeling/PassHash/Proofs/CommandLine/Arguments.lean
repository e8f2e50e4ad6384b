import PassHash.CommandLine.Arguments
import PassHash.Proofs.Checks

/-!
# The Phrase among the Arguments

Where the words of a command line are cut does not depend on what they are allowed to be. So words
are read in two steps: they are cut into parts, and the parts are added one after another. In this
way it shows that the option with the phrase may stand ahead of the other words or behind them, and
that it changes nothing about how these are read.

## Contents

- `Form.cut`, `Form.add`: the two steps of reading
- `Unphrased`: words that do not name the phrase
- `Command.withPhrase`, `Invocation.withPhrase`: a request with a phrase

## Main statements

- `Form.read_eq_cut`: reading is cutting and adding
- `Form.read_phrase_ahead`, `Form.read_phrase_behind`: the option ahead of other words and behind
- `Invocation.ofWords_phrase_ahead`, `Invocation.ofWords_phrase_behind`: the request of a command
  line with the option
-/

namespace PassHash

namespace CommandLine

/-! ## The option of the phrase -/

/-- The word that gives the phrase. -/
def phraseWord (phrase : String) : String := "--phrase=" ++ phrase

/-- The part of a command line that gives the phrase. -/
def Item.phrase (phrase : String) : Item := .option "phrase" phrase

theorem Argument.ofString_phraseWord (phrase : String) :
    ofString (phraseWord phrase) = .option "phrase" (some phrase) :=
  ofString_option "phrase" phrase (by decide)

/-- Only two hyphens end the options. -/
theorem Argument.eq_of_ofString_eq_terminator {word : String} (h : ofString word = .terminator) :
    word = "--" := by
  rw [ofString] at h
  split at h
  · cases h
  · next c text hword =>
    split at h
    · next hc =>
      subst hc
      rw [ofHyphen.eq_def] at h
      split at h
      · cases h
      · exact String.toList_injective hword
      · cases h
      · cases h
    · cases h

/-- Words none of which names the phrase. Behind the two hyphens that end the options any word may
    stand. -/
inductive Unphrased : List String → Prop
  | nil : Unphrased []
  | terminated (rest : List String) : Unphrased ("--" :: rest)
  | cons {word : String} {rest : List String}
      (hword : ∀ value?, Argument.ofString word ≠ .option "phrase" value?)
      (hrest : Unphrased rest) : Unphrased (word :: rest)

namespace Unphrased

variable {word : String} {rest : List String}

theorem of_cons (h : Unphrased (word :: rest)) (hword : Argument.ofString word ≠ .terminator) :
    (∀ value?, Argument.ofString word ≠ .option "phrase" value?) ∧ Unphrased rest := by
  cases h with
  | terminated rest => exact absurd rfl hword
  | cons hword hrest => exact ⟨hword, hrest⟩

/-- A plain word does not name the phrase. -/
theorem plain (hword : Argument.ofString word = .plain) : Unphrased [word] :=
  .cons (by simp [hword]) .nil

end Unphrased

namespace Form

variable {f : Form} {phrase name : String} {items items' : List Item} {words : List String}
  {part : Item}

/-! ## Cutting and adding -/

/-- The parts that words are cut into, and what is left in the end: the words from the command on,
    or the reason why there is no further part. -/
def cut (f : Form) : List String → List Item × Except Refusal (List String)
  | [] => ([], .ok [])
  | s :: rest =>
    match Argument.ofString s with
    | .plain =>
      if f.words.isNone then ([], .ok (s :: rest)) else (f.cut rest).map (.word s :: ·) id
    | .terminator => (rest.map .word, .ok [])
    | .letter 'h' => (f.cut rest).map (.flag "help" :: ·) id
    | .letter 'V' => (f.cut rest).map (.flag "version" :: ·) id
    | .letter c => ([], .error (.unknownOption (String.singleton c)))
    | .option name (some value) => (f.cut rest).map (.option name value :: ·) id
    | .option name none =>
      if !f.options.contains name then (f.cut rest).map (.flag name :: ·) id
      else
        match rest with
        | [] => ([], .error (.missingValue name))
        | v :: rest =>
          if Argument.ofString v = .plain then (f.cut rest).map (.option name v :: ·) id
          else ([], .error (.missingValue name))

/-- The parts with a further one after them. -/
def add (f : Form) (items : List Item) : Item → Except Refusal (List Item)
  | .word text => f.addWord items text
  | .flag name => f.addFlag items name
  | .option name value => f.addOption items name value

theorem foldlM_addWord (items : List Item) (words : List String) :
    words.foldlM f.addWord items = (words.map .word).foldlM f.add items := by
  rw [List.foldlM_map]
  rfl

/-- Words are read by cutting them and adding the parts. -/
theorem read_eq_cut (f : Form) (items : List Item) (words : List String) :
    f.read items words = (do
      let items ← (f.cut words).1.foldlM f.add items
      pure (items, ← (f.cut words).2)) := by
  -- a part that is added first is added first of all parts
  have hcons (part : Item) (cut : List Item × Except Refusal (List String)) (items : List Item) :
      (do
        let items ← (cut.map (part :: ·) id).1.foldlM f.add items
        pure (items, ← (cut.map (part :: ·) id).2)) =
      (do
        let items ← f.add items part
        let items ← cut.1.foldlM f.add items
        pure (items, ← cut.2)) := by
    simp only [Prod.map_fst, Prod.map_snd, List.foldlM_cons, id, bind_assoc]
  fun_induction f.cut words generalizing items with
  | case1 => rfl
  | case2 s rest hs hnone =>
    rw [read, hs]
    simp only [hnone, if_true]
    rfl
  | case3 s rest hs hsome ih =>
    rw [read, hs]
    simp only [hsome, hcons, ih]
    rfl
  | case4 s rest hs =>
    rw [read, hs]
    simp only [foldlM_addWord]
    rfl
  | case5 s rest hs ih | case6 s rest hs ih | case8 s rest name value hs ih =>
    rw [read, hs]
    simp only [hcons, ih]
    rfl
  | case7 s rest c hhelp hversion hs =>
    rw [read, hs]
    -- the letter is none of the two that have a meaning
    split
    case h_5 hletter =>
      cases hletter
      rfl
    all_goals simp_all
  | case9 s rest name hs hflag ih =>
    rw [read, hs]
    simp only [hflag, if_true, hcons, ih]
    rfl
  | case10 s name hs hoption =>
    rw [read, hs]
    simp only [hoption]
    rfl
  | case11 s name hs hoption v rest hv ih =>
    rw [read, hs]
    simp only [hoption, hv, if_true, hcons, ih]
    rfl
  | case12 s name hs hoption v rest hv =>
    rw [read, hs]
    simp only [hoption, hv]
    rfl

/-- Words that do not name the phrase are cut into parts that do not. -/
theorem name?_ne_phrase_of_mem_cut (hwords : Unphrased words) :
    ∀ part ∈ (f.cut words).1, part.name? ≠ some "phrase" := by
  fun_induction f.cut words with
  | case1 | case2 | case7 | case10 | case12 => simp
  | case3 s rest hs hsome ih =>
    obtain ⟨-, hrest⟩ := hwords.of_cons (by simp [hs])
    exact List.forall_mem_cons.2 ⟨by simp [Item.name?], ih hrest⟩
  | case4 s rest hs => simp [Item.name?]
  | case5 s rest hs ih | case6 s rest hs ih =>
    obtain ⟨-, hrest⟩ := hwords.of_cons (by simp [hs])
    exact List.forall_mem_cons.2 ⟨by simp [Item.name?], ih hrest⟩
  | case8 s rest name value hs ih =>
    obtain ⟨hname, hrest⟩ := hwords.of_cons (by simp [hs])
    refine List.forall_mem_cons.2 ⟨?_, ih hrest⟩
    rintro ⟨⟩
    exact hname _ hs
  | case9 s rest name hs hflag ih =>
    obtain ⟨hname, hrest⟩ := hwords.of_cons (by simp [hs])
    refine List.forall_mem_cons.2 ⟨?_, ih hrest⟩
    rintro ⟨⟩
    exact hname _ hs
  | case11 s name hs hoption v rest hv ih =>
    obtain ⟨hname, hrest⟩ := hwords.of_cons (by simp [hs])
    obtain ⟨-, hrest⟩ := hrest.of_cons (by simp [hv])
    refine List.forall_mem_cons.2 ⟨?_, ih hrest⟩
    rintro ⟨⟩
    exact hname _ hs

/-- A cut with the part for the phrase behind the others, unless it stopped before. -/
def withPhraseBehind (phrase : String) (cut : List Item × Except Refusal (List String)) :
    List Item × Except Refusal (List String) :=
  match cut with
  | (items, .ok rest) => (items ++ [.phrase phrase], .ok rest)
  | (items, .error e) => (items, .error e)

theorem withPhraseBehind_map_cons (part : Item)
    (cut : List Item × Except Refusal (List String)) :
    withPhraseBehind phrase (cut.map (part :: ·) id) =
      (withPhraseBehind phrase cut).map (part :: ·) id := by
  rcases cut with ⟨items, e | rest⟩ <;> rfl

/-- The option behind other words is a part behind theirs: it is never taken for a value. -/
theorem cut_concat_phraseWord (hf : f.words.isNone = false)
    (hwords : ∀ word ∈ words, Argument.ofString word ≠ .terminator) :
    f.cut (words ++ [phraseWord phrase]) = withPhraseBehind phrase (f.cut words) := by
  have hlast : f.cut [phraseWord phrase] = ([.phrase phrase], .ok []) := by
    rw [cut, Argument.ofString_phraseWord]
    rfl
  fun_induction f.cut words with
  | case1 => exact hlast
  | case2 s rest hs hnone => simp [hf] at hnone
  | case3 s rest hs hsome ih =>
    rw [List.cons_append, cut, hs, withPhraseBehind_map_cons,
      ← ih (List.forall_mem_cons.1 hwords).2]
    simp only [hsome]
    rfl
  | case4 s rest hs => exact absurd hs (List.forall_mem_cons.1 hwords).1
  | case5 s rest hs ih | case6 s rest hs ih =>
    rw [List.cons_append, cut, hs, withPhraseBehind_map_cons,
      ← ih (List.forall_mem_cons.1 hwords).2]
    rfl
  | case8 s rest name value hs ih =>
    rw [List.cons_append, cut, hs, withPhraseBehind_map_cons,
      ← ih (List.forall_mem_cons.1 hwords).2]
  | case7 s rest c hhelp hversion hs =>
    rw [List.cons_append, cut, hs]
    split
    case h_5 hletter =>
      cases hletter
      rfl
    all_goals simp_all
  | case9 s rest name hs hflag ih =>
    rw [List.cons_append, cut, hs, withPhraseBehind_map_cons,
      ← ih (List.forall_mem_cons.1 hwords).2]
    simp only [hflag, if_true]
  | case10 s name hs hoption =>
    rw [List.cons_append, cut, hs]
    simp only [hoption, List.nil_append, Argument.ofString_phraseWord]
    rfl
  | case11 s name hs hoption v rest hv ih =>
    have hrest := (List.forall_mem_cons.1 (List.forall_mem_cons.1 hwords).2).2
    rw [List.cons_append, List.cons_append, cut, hs, withPhraseBehind_map_cons, ← ih hrest]
    simp only [hoption, hv, if_true]
    rfl
  | case12 s name hs hoption v rest hv =>
    rw [List.cons_append, List.cons_append, cut, hs]
    simp only [hoption, hv]
    rfl

/-! ## Reading with the option -/

theorem eq_append_of_add (h : f.add items part = .ok items') : items' = items ++ [part] := by
  cases part with
  | word text =>
    simp only [add, addWord] at h
    split at h <;> cases h
    rfl
  | flag name =>
    simp only [add, addFlag] at h
    repeat' split at h
    all_goals cases h
    rfl
  | option name value =>
    simp only [add, addOption] at h
    repeat' split at h
    all_goals cases h
    rfl

/-- Adding parts in turn appends them all, if none is out of place. -/
theorem eq_append_of_foldlM_add {parts : List Item} (h : parts.foldlM f.add items = .ok items') :
    items' = items ++ parts := by
  induction parts generalizing items with
  | nil =>
    cases h
    rw [List.append_nil]
  | cons part parts ih =>
    rw [List.foldlM_cons, Checks.bind_eq_ok_iff] at h
    obtain ⟨added, hadd, hparts⟩ := h
    rw [ih hparts, eq_append_of_add hadd, List.append_assoc]
    rfl

theorem any_isNamed_phrase_cons (hname : name ≠ "phrase") :
    (Item.phrase phrase :: items).any (·.isNamed name) = items.any (·.isNamed name) := by
  have hnamed : (Item.phrase phrase).isNamed name = false := by
    simpa [Item.isNamed, Item.phrase, Item.name?] using hname.symm
  rw [List.any_cons, hnamed, Bool.false_or]

/-- The phrase makes no difference to parts that do not name it. -/
theorem add_phrase_cons (hpart : part.name? ≠ some "phrase") :
    f.add (.phrase phrase :: items) part = (f.add items part).map (.phrase phrase :: ·) := by
  cases part with
  | word text =>
    have hwords : Item.words (.phrase phrase :: items) = Item.words items := rfl
    simp only [add, addWord, hwords, apply_ite (Except.map _)]
    rfl
  | flag name =>
    have hname : name ≠ "phrase" := fun h => hpart (congrArg some h)
    simp only [add, addFlag, any_isNamed_phrase_cons hname, apply_ite (Except.map _)]
    rfl
  | option name value =>
    have hname : name ≠ "phrase" := fun h => hpart (congrArg some h)
    simp only [add, addOption, any_isNamed_phrase_cons hname, apply_ite (Except.map _)]
    rfl

theorem foldlM_add_phrase_cons {parts : List Item}
    (hparts : ∀ part ∈ parts, part.name? ≠ some "phrase") :
    parts.foldlM f.add (.phrase phrase :: items) =
      (parts.foldlM f.add items).map (.phrase phrase :: ·) := by
  induction parts generalizing items with
  | nil => rfl
  | cons part parts ih =>
    obtain ⟨hpart, hrest⟩ := List.forall_mem_cons.1 hparts
    rw [List.foldlM_cons, List.foldlM_cons, add_phrase_cons hpart]
    cases f.add items part with
    | error e => rfl
    | ok items => exact ih hrest

/-- A form with room for a phrase: it has the option, and takes words to the last one. -/
structure TakesPhrase (f : Form) : Prop where
  mem_options : f.options.contains "phrase" = true
  notMem_flags : f.flags.contains "phrase" = false
  words_isSome : f.words.isNone = false

/-- The phrase is added to parts that do not name it. -/
theorem add_phrase (hf : f.TakesPhrase) (hitems : ∀ part ∈ items, part.name? ≠ some "phrase") :
    f.add items (.phrase phrase) = .ok (items ++ [.phrase phrase]) := by
  have hnamed : items.any (·.isNamed "phrase") = false := by
    rw [List.any_eq_false]
    intro part hpart
    simpa [Item.isNamed] using hitems part hpart
  have htakes : Item.takes "phrase" phrase = true := rfl
  show f.addOption items "phrase" phrase = _
  simp only [addOption, hf.notMem_flags, hf.mem_options, hnamed, htakes]
  rfl

/-- The parts that are read are those that the words are cut into. -/
theorem name?_ne_phrase_of_read {r : List Item × List String} (hwords : Unphrased words)
    (hread : f.read [] words = .ok r) : ∀ part ∈ r.1, part.name? ≠ some "phrase" := by
  rw [read_eq_cut, Checks.bind_eq_ok_iff] at hread
  obtain ⟨items, hparts, hread⟩ := hread
  rw [Checks.bind_eq_ok_iff] at hread
  obtain ⟨rest, -, ⟨⟩⟩ := hread
  rw [eq_append_of_foldlM_add hparts]
  exact name?_ne_phrase_of_mem_cut hwords

theorem read_phrase_ahead (hf : f.TakesPhrase) (hwords : Unphrased words) :
    f.read [] (phraseWord phrase :: words) =
      (f.read [] words).map (Prod.map (.phrase phrase :: ·) id) := by
  have hcut : f.cut (phraseWord phrase :: words) = (f.cut words).map (.phrase phrase :: ·) id := by
    rw [cut, Argument.ofString_phraseWord]
    rfl
  have hadd : f.add [] (.phrase phrase) = .ok [.phrase phrase] := add_phrase hf (by simp)
  rw [read_eq_cut, read_eq_cut, hcut, Prod.map_fst, Prod.map_snd, List.foldlM_cons, hadd]
  show ((f.cut words).1.foldlM f.add [.phrase phrase] >>= _) = _
  rw [foldlM_add_phrase_cons (name?_ne_phrase_of_mem_cut hwords)]
  cases (f.cut words).1.foldlM f.add [] with
  | error e => rfl
  | ok items => cases (f.cut words).2 <;> rfl

theorem read_phrase_behind (hf : f.TakesPhrase) (hwords : Unphrased words)
    (hend : ∀ word ∈ words, Argument.ofString word ≠ .terminator) :
    f.read [] (words ++ [phraseWord phrase]) =
      (f.read [] words).map (Prod.map (· ++ [.phrase phrase]) id) := by
  have hnames := name?_ne_phrase_of_mem_cut (f := f) hwords
  rw [read_eq_cut, read_eq_cut, cut_concat_phraseWord hf.words_isSome hend]
  generalize f.cut words = cut at hnames
  rcases cut with ⟨parts, e | rest⟩
  · cases hparts : parts.foldlM f.add [] <;> simp [withPhraseBehind, hparts] <;> rfl
  · simp only [withPhraseBehind, List.foldlM_append]
    cases hparts : parts.foldlM f.add [] with
    | error e => rfl
    | ok items =>
      have hitems : items = parts := eq_append_of_foldlM_add hparts
      have hadd : f.add items (.phrase phrase) = .ok (items ++ [.phrase phrase]) :=
        add_phrase hf (hitems ▸ hnames)
      show (([Item.phrase phrase].foldlM f.add items) >>= _) = _
      rw [List.foldlM_cons, hadd]
      rfl

end Form

/-! ## Requests with the option -/

/-- Parts of a command line that differ from others in the phrase only. -/
structure Item.AddsPhrase (phrase : String) (items items' : List Item) : Prop where
  words : Item.words items' = Item.words items
  phrase : Item.value? "phrase" items' = some phrase
  config : Item.value? "config" items' = Item.value? "config" items

namespace Item

variable {phrase name : String} {items : List Item}

/-- What is not named has no value. -/
theorem value?_eq_none (h : ∀ part ∈ items, part.name? ≠ some name) : value? name items = none := by
  rw [value?, List.findSome?_eq_none_iff]
  intro part hpart
  cases part with
  | option n v => exact if_neg fun hn => h _ hpart (congrArg some hn)
  | _ => rfl

theorem addsPhrase_cons (phrase : String) (items : List Item) :
    AddsPhrase phrase items (.phrase phrase :: items) where
  words := rfl
  phrase := rfl
  config := rfl

theorem addsPhrase_concat (h : ∀ part ∈ items, part.name? ≠ some "phrase") :
    AddsPhrase phrase items (items ++ [.phrase phrase]) where
  words := by simp [words, Item.phrase, word?]
  phrase := by
    have hnone := value?_eq_none h
    rw [value?] at hnone ⊢
    rw [List.findSome?_append, hnone]
    rfl
  config := by
    rw [value?, value?, List.findSome?_append]
    exact Option.or_none

end Item

namespace Command

/-- The phrase that a command is given. -/
def phrase? : Command → Option String
  | hash _ phrase? => phrase?
  | verify _ phrase? => phrase?
  | _ => none

/-- The command with a phrase, if it takes one. -/
def withPhrase (phrase : String) : Command → Command
  | hash setting? _ => hash setting? (some phrase)
  | verify stored _ => verify stored (some phrase)
  | c => c

end Command

/-- The commands that take a phrase. -/
def CommandKind.TakesPhrase (kind : CommandKind) : Prop := kind = .hash ∨ kind = .verify

namespace CommandKind

variable {kind : CommandKind} {phrase : String} {items items' : List Item}

theorem TakesPhrase.form (hk : kind.TakesPhrase) : kind.form.TakesPhrase := by
  rcases hk with rfl | rfl <;> exact ⟨by decide, by decide, rfl⟩

theorem ofItems_of_addsPhrase (hk : kind.TakesPhrase)
    (hitems : Item.AddsPhrase phrase items items') :
    Command.ofItems items' kind = (Command.ofItems items kind).map (·.withPhrase phrase) := by
  rcases hk with rfl | rfl
  · simp only [Command.ofItems, hitems.words, hitems.phrase]
    rfl
  · simp only [Command.ofItems, Command.required, hitems.words, hitems.phrase]
    cases Item.words items <;> rfl

theorem phrase?_ofItems (hk : kind.TakesPhrase) {c : Command}
    (hitems : ∀ part ∈ items, part.name? ≠ some "phrase")
    (hc : Command.ofItems items kind = .ok c) : c.phrase? = none := by
  have hnone := Item.value?_eq_none hitems
  rcases hk with rfl | rfl
  · cases hc
    exact hnone
  · rw [Command.ofItems, Checks.bind_eq_ok_iff] at hc
    obtain ⟨stored, -, ⟨⟩⟩ := hc
    exact hnone

end CommandKind

namespace Invocation

variable {kind : CommandKind} {phrase : String} {words : List String}

/-- The request with a phrase, if its command takes one. -/
def withPhrase (phrase : String) (r : Invocation) : Invocation :=
  { r with command := r.command.withPhrase phrase }

/-- A command line that starts with its command. -/
theorem ofWords_cons_name (kind : CommandKind) (words : List String) :
    ofWords (kind.name :: words) = ofKind [] kind words := by
  have hplain : Argument.ofString kind.name = .plain := by cases kind <;> decide
  have hkind : CommandKind.ofName? kind.name = some kind := by cases kind <;> decide
  have hread : Form.outer.read [] (kind.name :: words) = .ok ([], kind.name :: words) := by
    rw [Form.read, hplain]
    rfl
  simp only [ofWords, hread, bind, Except.bind, hkind]

/-- The request of a command with the given parts after it. -/
def ofParts (kind : CommandKind) (items : List Item) : Except Refusal Invocation :=
  (Command.ofItems items kind).map (⟨Item.value? "config" items, ·⟩)

theorem ofKind_eq (kind : CommandKind) (words : List String) :
    ofKind [] kind words = kind.form.read [] words >>= fun r => ofParts kind r.1 := by
  rw [ofKind]
  cases kind.form.read [] words with
  | error e => rfl
  | ok r =>
    have hconfig : (Item.value? "config" r.1).or (Item.value? "config" []) =
        Item.value? "config" r.1 := Option.or_none
    show (do
        let command ← Command.ofItems r.1 kind
        pure ⟨(Item.value? "config" r.1).or (Item.value? "config" []), command⟩) = ofParts kind r.1
    rw [hconfig, ofParts]
    cases Command.ofItems r.1 kind <;> rfl

/-- Where the parts differ in the phrase only, the requests do. -/
theorem ofParts_of_addsPhrase (hk : kind.TakesPhrase) {items items' : List Item}
    (hitems : Item.AddsPhrase phrase items items') :
    ofParts kind items' = (ofParts kind items).map (·.withPhrase phrase) := by
  rw [ofParts, ofParts, hitems.config, CommandKind.ofItems_of_addsPhrase hk hitems]
  cases Command.ofItems items kind <;> rfl

/-- With the option ahead of the other words the request is theirs, with the phrase. -/
theorem ofWords_phrase_ahead (hk : kind.TakesPhrase) (hwords : Unphrased words) :
    ofWords (kind.name :: phraseWord phrase :: words) =
      (ofWords (kind.name :: words)).map (·.withPhrase phrase) := by
  rw [ofWords_cons_name, ofWords_cons_name, ofKind_eq, ofKind_eq,
    Form.read_phrase_ahead hk.form hwords]
  cases kind.form.read [] words with
  | error e => rfl
  | ok r => exact ofParts_of_addsPhrase hk (Item.addsPhrase_cons phrase r.1)

/-- With the option behind the other words the request is theirs, with the phrase. -/
theorem ofWords_phrase_behind (hk : kind.TakesPhrase) (hwords : Unphrased words)
    (hend : ∀ word ∈ words, Argument.ofString word ≠ .terminator) :
    ofWords (kind.name :: (words ++ [phraseWord phrase])) =
      (ofWords (kind.name :: words)).map (·.withPhrase phrase) := by
  rw [ofWords_cons_name, ofWords_cons_name, ofKind_eq, ofKind_eq,
    Form.read_phrase_behind hk.form hwords hend]
  cases hr : kind.form.read [] words with
  | error e => rfl
  | ok r =>
    have hnames := Form.name?_ne_phrase_of_read hwords hr
    exact ofParts_of_addsPhrase hk (Item.addsPhrase_concat hnames)

/-- A request whose words do not name the phrase has none. -/
theorem phrase?_of_unphrased (hk : kind.TakesPhrase) (hwords : Unphrased words) {r : Invocation}
    (hr : ofWords (kind.name :: words) = .ok r) : r.command.phrase? = none := by
  rw [ofWords_cons_name, ofKind_eq, Checks.bind_eq_ok_iff] at hr
  obtain ⟨read, hread, hparts⟩ := hr
  rw [ofParts, Checks.map_eq_ok_iff] at hparts
  obtain ⟨command, hc, ⟨⟩⟩ := hparts
  exact CommandKind.phrase?_ofItems hk (Form.name?_ne_phrase_of_read hwords hread) hc

end Invocation

end CommandLine

end PassHash
