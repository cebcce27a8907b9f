import SliceLint.Discovery
import SliceLint.FileCheck
import SliceLint.Notice
import SliceLint.Report

set_option autoImplicit false

/-! # Runs

A run checks all files of a project. Its outcome is a report or an error, and the notices on the
way to it. -/

namespace SliceLint

/-- What the user asks of a run beside the settings of the project. -/
structure RunOptions where
  /-- Names or codes of the only rules to run, divided by commas. -/
  ruleFilter : Option String
  /-- More patterns of files to leave out. -/
  exclude : List String
  /-- The configuration document to read aliases from. -/
  document : Option String
  /-- Explicit aliases. -/
  aliases : List String
  deriving DecidableEq, Repr

/-- Why a run has no report. -/
inductive RunError where
  /-- An ignored import target is no pattern. -/
  | ignorePattern (cause : IgnorePatternError)
  /-- An excluded file is no pattern. -/
  | excludePattern (pattern : String)
  /-- The files cannot be searched for. -/
  | discovery (cause : DiscoveryError)
  /-- A file cannot be read. -/
  | unreadableFile (path : String)

namespace RunError

/-- What is said about the run. -/
def message : RunError → String
  | ignorePattern _ => "Failed to build analyzer"
  | excludePattern pattern => "Invalid exclude pattern: " ++ pattern
  | discovery cause => cause.message
  | unreadableFile path => "Failed to check " ++ path

end RunError

/-- A value with the notices on the way to it. -/
structure Noted (α : Type) where
  value : α
  notices : List Notice

namespace Run

/-! ## Rules -/

/-- The rule names and codes of a filter. -/
def wantedRules (filter : String) : List String :=
  ((Text.split (· == ',') filter.toList).map fun part => Text.trim (String.ofList part)).filter
    (· ≠ "")

/-- Whether a rule is meant by a name or code. -/
def isMeant (rule : Rule) (wanted : String) : Bool :=
  rule.kind.name == wanted || rule.kind.code == wanted

/-- The rules that a filter lets through. Each entry that means no rule has a warning. -/
def selectRules (rules : List Rule) (filter : Option String) : Noted (List Rule) :=
  match filter with
  | none => ⟨rules, []⟩
  | some filter =>
    let wanted := wantedRules filter
    ⟨rules.filter fun rule => wanted.any (isMeant rule),
      (wanted.filter fun name => !rules.any fun rule => isMeant rule name).map fun name =>
        .warning ("Unknown or disabled rule: " ++ name)⟩

/-! ## Files -/

/-- The source root of a project: the configured one, or the project itself if that does not
exist. -/
def sourceRoot (w : Workspace) (project : String) (s : Settings) : Noted String :=
  let root := Path.join project s.source.root
  if w.isDirectory root then ⟨root, []⟩
  else ⟨project, [.warning ("Source root " ++ root ++ " not found, analyzing " ++ project)]⟩

/-- The patterns of files to leave out, or the first text that is none. -/
def excludePatterns (patterns : List String) : Except RunError (List Glob) :=
  patterns.mapM fun pattern =>
    match Glob.parse pattern with
    | .ok g => .ok g
    | .error _ => .error (.excludePattern pattern)

/-- The files to check: those of a known language that no pattern leaves out. -/
def filesToCheck (w : Workspace) (root : String) (respectIgnored : Bool) (exclude : List String) :
    Except RunError (List String) := do
  let patterns ← excludePatterns exclude
  match Discovery.files w respectIgnored root with
  | .error cause => .error (.discovery cause)
  | .ok files =>
    .ok ((files.filter fun f =>
      (Language.ofPath? f.path).isSome && !patterns.any fun g => g.isMatch f.relative).map
        FoundFile.path)

/-- Check files in order, and collect what is found. Stops at a file that cannot be read. -/
def checkFiles (w : Workspace) : Analyzer → Report → List String → Noted (Except RunError Report)
  | _, report, [] => ⟨.ok report, []⟩
  | a, report, file :: rest =>
    let check := a.checkFile w file
    let notices := check.unreadableDocument.toList.map fun path =>
      Notice.warning (AliasOptions.unreadableMessage path)
    match check.outcome with
    | .unreadable => ⟨.error (.unreadableFile file), notices⟩
    | .unsupported =>
      let next := checkFiles w check.analyzer report rest
      ⟨next.value, notices ++ next.notices⟩
    | .checked violations =>
      let next := checkFiles w check.analyzer (report.extend ⟨violations, 1⟩) rest
      ⟨next.value, notices ++ next.notices⟩

/-! ## Projects -/

/-- The settings with the named document taken from the project's directory. -/
def anchorDocument (project : String) (s : Settings) : Settings :=
  { s with
    resolve := { s.resolve with document := s.resolve.document.map (Path.join project) } }

/-- The analyzer of a run. -/
def analyzer (root : String) (options : RunOptions) (s : Settings) (rules : List Rule) :
    Except IgnorePatternError Analyzer :=
  AnalyzerOptions.build (AnalyzerOptions.withSettings
    { root := some root
      rules := rules
      aliasOptions := ⟨options.aliases, options.document⟩
      ignoredImports := [] } s)

/-- The notice about the outcome of a run. -/
def summaryNotice (r : Report) : Notice :=
  .info ("Checked " ++ Text.decimal r.filesChecked ++ " file(s): " ++ Text.decimal (r.count .error)
    ++ " error(s), " ++ Text.decimal (r.count .warning) ++ " warning(s)")

/-- Check a project. -/
def lint (w : Workspace) (project : String) (options : RunOptions) (s : Settings) :
    Noted (Except RunError Report) :=
  let root := sourceRoot w project s
  let rules := selectRules s.activeRules options.ruleFilter
  let notices := root.notices ++ rules.notices
  match analyzer root.value options (anchorDocument project s) rules.value with
  | .error cause => ⟨.error (.ignorePattern cause), notices⟩
  | .ok a =>
    let notices := notices ++ [.info ("Analyzing " ++ root.value ++ " with "
      ++ Text.decimal a.rules.length ++ " rules")]
    match filesToCheck w root.value s.source.respectIgnored
        (s.source.exclude ++ options.exclude) with
    | .error cause => ⟨.error cause, notices⟩
    | .ok files =>
      let checked := checkFiles w a .empty files
      let notices := notices ++ checked.notices
      match checked.value with
      | .error cause => ⟨.error cause, notices⟩
      | .ok report =>
        let report := report.sort
        ⟨.ok report, notices ++ [summaryNotice report]⟩

end Run

end SliceLint
