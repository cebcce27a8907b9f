import SliceLint.Output
import SliceLint.Run

set_option autoImplicit false

/-! # The command line

The words of a command line as a command. Options are `--name value`, `--name=value`, `-n value`,
`-nvalue` or `-n=value`; single letters without a value may be joined. A value must not look like an
option, and after `--` nothing is one. -/

namespace SliceLint

/-- What the user asks for. -/
inductive Command where
  | check (project : String) (format : OutputFormat) (options : RunOptions)
      (settings : Option String)
  | listRules
  | init (force : Bool)
  | version
  | help
  deriving DecidableEq, Repr

/-- The words that are no command line. -/
inductive UsageError where
  | unknownOption (word : String)
  | unknownCommand (word : String)
  | unexpectedWord (word : String)
  | missingCommand
  | missingValue (name : String)
  | unexpectedValue (name : String)
  | repeatedOption (name : String)
  | badValue (name value : String)
  deriving DecidableEq, Repr

namespace CommandLine

/-! ## Options -/

/-- An option of the command line. -/
structure CliOption where
  name : String
  letter : Option Char
  takesValue : Bool
  /-- Whether it may be given more than once. -/
  repeats : Bool
  /-- Whether its value is a path, which is never empty. -/
  isPath : Bool
  deriving DecidableEq, Repr

/-- An option without a value. -/
def flag (name : String) (letter : Option Char) : CliOption :=
  ⟨name, letter, false, false, false⟩

/-- The options of every command. -/
def globalOptions : List CliOption :=
  [flag "verbose" (some 'v'), ⟨"config", some 'c', true, false, true⟩, flag "help" (some 'h')]

/-- The options in front of a command. -/
def topOptions : List CliOption :=
  globalOptions ++ [flag "version" (some 'V')]

/-- The options of the command that checks a project. -/
def checkOptions : List CliOption :=
  globalOptions ++ [⟨"format", some 'f', true, false, false⟩, ⟨"rules", none, true, false, false⟩,
    ⟨"exclude", some 'e', true, true, false⟩, ⟨"tsconfig", none, true, false, true⟩,
    ⟨"alias", none, true, true, false⟩]

/-- The options of the command that writes settings. -/
def initOptions : List CliOption :=
  globalOptions ++ [flag "force" none]

/-! ## Words -/

/-- The options and other words of a command line, in order. -/
structure Words where
  options : List (String × String)
  positions : List String
  deriving DecidableEq, Repr

namespace Words

/-- No words yet. -/
def empty : Words := ⟨[], []⟩

/-- The values of an option. -/
def values (w : Words) (name : String) : List String :=
  (w.options.filter fun o => o.1 == name).map (·.2)

/-- The value of an option. -/
def value? (w : Words) (name : String) : Option String :=
  (w.values name).head?

/-- Whether an option is given. -/
def has (w : Words) (name : String) : Bool :=
  (w.value? name).isSome

/-- Add an option. -/
def addOption (w : Words) (option : CliOption) (value : String) : Except UsageError Words :=
  if w.has option.name && !option.repeats then .error (.repeatedOption option.name)
  else if option.isPath && value.isEmpty then .error (.missingValue option.name)
  else if option.name == "format" && (OutputFormat.ofName? value).isNone then
    .error (.badValue option.name value)
  else .ok { w with options := w.options ++ [(option.name, value)] }

/-- Add a word that is no option. -/
def addPosition (w : Words) (word : String) : Words :=
  { w with positions := w.positions ++ [word] }

end Words

/-- Whether a word looks like an option. -/
def looksLikeOption (word : String) : Bool :=
  Text.startsWith "-" word && word != "-"

/-- The parts of a text in front of its first equals sign and after it. -/
def splitEquals (cs : List Char) : List Char × Option (List Char) :=
  match cs.dropWhile (· != '=') with
  | [] => (cs, none)
  | _ :: value => (cs.takeWhile (· != '='), some value)

/-- An option that still needs its value, beside the words read so far. -/
structure Pending where
  words : Words
  needs : Option CliOption

/-- Read a word with an option's full name, without its hyphens. -/
def readLong (options : List CliOption) (w : Words) (cs : List Char) : Except UsageError Pending :=
  let (name, value) := splitEquals cs
  match options.find? fun o => o.name == String.ofList name with
  | none => .error (.unknownOption (String.ofList cs))
  | some option =>
    if option.takesValue then
      match value with
      | none => .ok ⟨w, some option⟩
      | some value => (w.addOption option (String.ofList value)).map fun w => ⟨w, none⟩
    else
      match value with
      | none => (w.addOption option "").map fun w => ⟨w, none⟩
      | some _ => .error (.unexpectedValue option.name)

/-- Read a word of option letters, without its hyphen. The reading ends at a letter that takes a
value, or that asks for help or the version. -/
def readLetters (options : List CliOption) : Words → List Char → Except UsageError Pending
  | w, [] => .ok ⟨w, none⟩
  | w, c :: rest =>
    match options.find? fun o => o.letter == some c with
    | none => .error (.unknownOption (String.ofList (c :: rest)))
    | some option =>
      if option.takesValue then
        match rest with
        | [] => .ok ⟨w, some option⟩
        | '=' :: value => (w.addOption option (String.ofList value)).map fun w => ⟨w, none⟩
        | value => (w.addOption option (String.ofList value)).map fun w => ⟨w, none⟩
      else
        match w.addOption option "" with
        | .error e => .error e
        | .ok w =>
          if option.name == "help" || option.name == "version" then .ok ⟨w, none⟩
          else readLetters options w rest

/-- Read a word that looks like an option. -/
def readOption (options : List CliOption) (w : Words) (word : String) : Except UsageError Pending :=
  match word.toList with
  | '-' :: '-' :: cs => readLong options w cs
  | _ :: cs => readLetters options w cs
  | [] => .ok ⟨w, none⟩

/-- Whether the user asks for help or the version, which ends the reading. -/
def asksForInformation (w : Words) : Bool :=
  w.has "help" || w.has "version"

/-- Read words up to the first one that is no option, where `stops` holds, or to the end. The words
that are left begin with it. -/
def readWords (options : List CliOption) (stops : Bool) :
    Words → List String → Except UsageError (Words × List String)
  | w, [] => .ok (w, [])
  | w, word :: rest =>
    if word = "--" then
      if stops then .ok (w, word :: rest)
      else .ok (rest.foldl Words.addPosition w, [])
    else if looksLikeOption word then
      match readOption options w word with
      | .error e => .error e
      | .ok ⟨w, none⟩ =>
        if asksForInformation w then .ok (w, []) else readWords options stops w rest
      | .ok ⟨w, some option⟩ =>
        match rest with
        | [] => .error (.missingValue option.name)
        | value :: rest =>
          if looksLikeOption value then .error (.missingValue option.name)
          else
            match w.addOption option value with
            | .error e => .error e
            | .ok w => readWords options stops w rest
    else if stops then .ok (w, word :: rest)
    else readWords options stops (w.addPosition word) rest

/-! ## Commands -/

/-- The words of a command that takes no other words than options. -/
def optionsOnly (options : List CliOption) (args : List String) : Except UsageError Words := do
  let (w, _) ← readWords options false .empty args
  match w.positions with
  | [] => .ok w
  | word :: _ => .error (.unexpectedWord word)

/-- The command that checks a project. The environment may name the configuration document. -/
def readCheck (top : Words) (documentVariable : Option String) (args : List String) :
    Except UsageError Command := do
  let (w, _) ← readWords checkOptions false .empty args
  let document := (w.value? "tsconfig").or documentVariable
  match w.positions with
  | _ :: word :: _ => .error (.unexpectedWord word)
  | positions =>
    let project := positions.head?.getD "."
    if project.isEmpty then .error (.missingValue "path")
    else if w.has "help" then .ok .help
    else if document = some "" then .error (.missingValue "tsconfig")
    else
      .ok (.check project (((w.value? "format").bind OutputFormat.ofName?).getD .text)
        { ruleFilter := w.value? "rules"
          exclude := w.values "exclude"
          document := document
          aliases := w.values "alias" }
        ((w.value? "config").or (top.value? "config")))

/-- The command of a command line. -/
def parse (documentVariable : Option String) (args : List String) : Except UsageError Command := do
  let (top, rest) ← readWords topOptions true .empty args
  if top.has "help" then .ok .help
  else if top.has "version" then .ok .version
  else
    match rest with
    | [] => .error .missingCommand
    | word :: rest =>
      if word = "check" then readCheck top documentVariable rest
      else if word = "list-rules" then
        let w ← optionsOnly globalOptions rest
        .ok (if w.has "help" then .help else .listRules)
      else if word = "init" then
        let w ← optionsOnly initOptions rest
        .ok (if w.has "help" then .help else .init (w.has "force"))
      else if word = "help" then .ok .help
      else .error (.unknownCommand word)

end CommandLine

end SliceLint
