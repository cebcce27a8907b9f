import SliceLint.CommandLine
import SliceLint.Settings.Reader

set_option autoImplicit false

/-! # Sessions

A session runs one command in a workspace: it reads what the command needs, and says what is
printed, what is written, and with which status the program ends. -/

namespace SliceLint

/-- The variables of the environment that matter. -/
structure Environment where
  /-- The home directory. -/
  home : Option String
  /-- The directory of the settings for all projects, instead of the one in the home directory. -/
  settingsDirectory : Option String
  /-- The configuration document to read aliases from. -/
  document : Option String
  deriving DecidableEq, Repr

/-- Why a command fails. -/
inductive SessionError where
  /-- The settings cannot be read. -/
  | settings (path : String)
  | run (cause : RunError)
  /-- There are settings already. -/
  | settingsExist (path : String)
  /-- The settings cannot be written. -/
  | unwritable (path : String)

namespace SessionError

/-- What is said about the command. -/
def message : SessionError → String
  | settings path => "Failed to load config: " ++ path
  | run cause => cause.message
  | settingsExist path =>
    "Configuration file already exists at " ++ path ++ ". Use --force to overwrite."
  | unwritable path => "Failed to write " ++ path

end SessionError

/-- What came of a command. -/
structure Outcome where
  status : Nat
  stdout : String
  notices : List Notice
  error : Option SessionError
  /-- The files after the command. -/
  tree : FileTree

namespace Session

/-! ## Settings -/

/-- Where settings were found. -/
inductive SettingsSource where
  | given (path : String)
  | project (path : String)
  | shared (path : String)
  | none
  deriving DecidableEq, Repr

/-- The names of a project's settings, in order of preference. -/
def settingsNames : List String :=
  ["fsd-lint.toml", ".fsd-lint.toml"]

/-- The directory of the settings for all projects. -/
def sharedDirectory? (env : Environment) : Option String :=
  match env.settingsDirectory with
  | some dir => if dir.isEmpty then homeDirectory? else some dir
  | none => homeDirectory?
where
  homeDirectory? : Option String :=
    env.home.map fun home => Path.join home ".fsd-lint"

/-- Where the settings of a project are: in the given file, in the project, or in those for all
projects. -/
def settingsSource (w : Workspace) (env : Environment) (project : String) (given : Option String) :
    SettingsSource :=
  match given with
  | some path => .given path
  | none =>
    match (settingsNames.map (Path.join project)).find? w.isFile with
    | some path => .project path
    | none =>
      match ((sharedDirectory? env).map fun dir => Path.join dir "config.toml").filter w.isFile with
      | some path => .shared path
      | none => .none

/-- Read settings from a file. -/
def readSettings (w : Workspace) (path : String) : Except SessionError Settings :=
  match (w.readText? path).bind Settings.parse? with
  | some s => .ok s
  | none => .error (.settings path)

/-- Read the settings of a project. -/
def loadSettings (w : Workspace) : SettingsSource → Noted (Except SessionError Settings)
  | .given path => ⟨readSettings w path, []⟩
  | .project path => ⟨readSettings w path, []⟩
  | .shared path => ⟨readSettings w path, [.info ("Using global config: " ++ path)]⟩
  | .none => ⟨.ok .default, []⟩

/-! ## Commands -/

/-- The outcome of a command that fails. -/
def failure (w : Workspace) (notices : List Notice) (e : SessionError) : Outcome :=
  ⟨1, "", notices, some e, w.tree⟩

/-- The outcome of a command that prints something. -/
def success (w : Workspace) (stdout : String) : Outcome :=
  ⟨0, stdout, [], none, w.tree⟩

/-- Check a project. The status tells whether a violation fails the run. -/
def check (w : Workspace) (env : Environment) (project : String) (format : OutputFormat)
    (options : RunOptions) (given : Option String) : Outcome :=
  let settings := loadSettings w (settingsSource w env project given)
  match settings.value with
  | .error e => failure w settings.notices e
  | .ok s =>
    let result := Run.lint w project options s
    let notices := settings.notices ++ result.notices
    match result.value with
    | .error e => failure w notices (.run e)
    | .ok report =>
      ⟨if report.reaches s.failThreshold then 1 else 0, report.render format, notices, none, w.tree⟩

/-- A text with blanks after it, up to a width. -/
def column (width : Nat) (s : String) : String :=
  s ++ String.ofList (List.replicate (width - s.length) ' ')

/-- A row of the table of rules. -/
def ruleRow (code name description : String) : String :=
  column 10 code ++ " " ++ column 22 name ++ " " ++ description ++ "\n"

/-- The table of rules. -/
def ruleTable : String :=
  "Available rules:\n\n" ++ ruleRow "Code" "Name" "Description"
    ++ String.ofList (List.replicate 80 '-') ++ "\n"
    ++ String.join (Rule.all.map fun r => ruleRow r.kind.code r.kind.name r.kind.description)
    ++ "\nLayers, lowest first: " ++ ", ".intercalate (Layer.all.map Layer.name) ++ "\n"
    ++ "\nUse --rules to filter specific rules, e.g.:\n"
    ++ "  fsd-lint check --rules layer-imports,public-api-imports\n"
    ++ "  fsd-lint check --rules FSD001,FSD004\n"

/-- The settings that a project starts with. -/
def settingsTemplate : String :=
  String.join (List.map (· ++ "\n") [
    "# fsd-lint configuration",
    "",
    "# Fail the run on violations at or above this severity (default: error)",
    "# fail_on = \"warning\"",
    "",
    "[analyzer]",
    "# Source root; layer directories (shared, entities, features, widgets,",
    "# pages, app) live directly below it.",
    "root = \"src\"",
    "",
    "# Glob patterns (relative to root) to exclude from analysis",
    "exclude = [",
    "    \"**/node_modules/**\",",
    "    \"**/dist/**\",",
    "]",
    "",
    "# Respect .gitignore files",
    "respect_gitignore = true",
    "",
    "[resolve]",
    "# Aliases are read from the nearest tsconfig.json / jsconfig.json.",
    "# tsconfig = \"tsconfig.app.json\"",
    "# Explicit aliases skip tsconfig resolution entirely.",
    "# aliases = [\"@/\"]",
    "# Import targets every rule ignores",
    "# ignore_imports = [\"**/StoreProvider\"]",
    "",
    "# Rule configurations",
    "# Each rule can be enabled/disabled and have its severity overridden",
    "",
    "[rules.layer-imports]",
    "enabled = true",
    "",
    "[rules.cross-import]",
    "enabled = true",
    "",
    "[rules.public-api-imports]",
    "enabled = true",
    "# severity = \"warning\"",
    "",
    "[rules.path-checker]",
    "enabled = true",
    "# Extra alias recognized for intra-slice imports",
    "# alias = \"@\""])

/-- The file that settings are written to. -/
def settingsFile : String := "fsd-lint.toml"

/-- Write the settings that a project starts with. -/
def writeTemplate (w : Workspace) (force : Bool) : Outcome :=
  let place := w.placeOf settingsFile
  let isDirectory := w.tree.hasDirectory place
  if (w.tree.hasFile place || isDirectory) && !force then
    failure w [] (.settingsExist settingsFile)
  else if isDirectory then failure w [] (.unwritable settingsFile)
  else
    { success w ("Created fsd-lint.toml\n\nNext steps:\n"
        ++ "  1. Edit fsd-lint.toml to match your source root and aliases\n"
        ++ "  2. Run: fsd-lint check\n") with
      tree := w.tree.write place settingsTemplate.toUTF8 }

/-- The name and version of the program. -/
def versionLine : String := "fsd-lint 0.4.2\n"

/-- Run a command. -/
def run (w : Workspace) (env : Environment) : Command → Outcome
  | .check project format options given => check w env project format options given
  | .listRules => success w ruleTable
  | .init force => writeTemplate w force
  | .version => success w versionLine
  | .help => success w ""

/-- Run the command of a command line. Words that are none end the program with status two. -/
def start (w : Workspace) (env : Environment) (args : List String) : Outcome :=
  match CommandLine.parse env.document args with
  | .ok command => run w env command
  | .error _ => { success w "" with status := 2 }

end Session

end SliceLint
