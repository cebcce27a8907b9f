import SliceLint.AliasOptions
import SliceLint.Rule
import SliceLint.Toml

set_option autoImplicit false

/-! # Settings

What a project can set: the source root and its excluded files, where aliases come from, and which
rules run with which severity. -/

namespace SliceLint

/-- Which files are analyzed. -/
structure SourceSettings where
  /-- The directory that holds the layers. -/
  root : String
  /-- Patterns of files to leave out. -/
  exclude : List String
  /-- Whether ignore files of version control count. -/
  respectIgnored : Bool
  deriving DecidableEq, Repr

/-- Where aliases come from, and which imports are left alone. -/
structure ResolveSettings where
  /-- The configuration document to read. -/
  document : Option String
  /-- Explicit aliases. -/
  aliases : List String
  /-- One more explicit alias. -/
  extraAlias : Option String
  /-- Patterns of import targets that no rule looks at. -/
  ignoredImports : List String
  deriving DecidableEq, Repr

/-- The settings of one rule. -/
structure RuleSettings where
  enabled : Option Bool
  severity : Option Severity
  /-- All other entries. -/
  options : List (String × Toml)

/-- The settings of a project. -/
structure Settings where
  /-- The severity from which on a violation fails the run. -/
  failOn : Option Severity
  source : SourceSettings
  resolve : ResolveSettings
  rules : List (String × RuleSettings)

namespace SourceSettings

/-- The source root where none is set. -/
def defaultRoot : String := "src"

/-- The settings where nothing is said about sources. -/
def default : SourceSettings where
  root := defaultRoot
  exclude := ["**/node_modules/**", "**/dist/**"]
  respectIgnored := true

end SourceSettings

namespace ResolveSettings

/-- The settings where nothing is said about aliases. -/
def default : ResolveSettings := ⟨none, [], none, []⟩

/-- The options by which aliases are found. -/
def aliasOptions (r : ResolveSettings) : AliasOptions :=
  ⟨r.aliases ++ r.extraAlias.toList, r.document⟩

end ResolveSettings

namespace RuleSettings

/-- An option that is a text. -/
def text? (r : RuleSettings) (key : String) : Option String :=
  (Toml.lookup? r.options key).bind Toml.text?

end RuleSettings

namespace Settings

/-- The settings of a project that sets nothing. -/
def default : Settings := ⟨none, .default, .default, []⟩

/-- The settings of a rule, by its name. -/
def rule? (s : Settings) (name : String) : Option RuleSettings :=
  (s.rules.find? fun r => r.1 == name).map (·.2)

/-- A rule is enabled unless it is said not to be. -/
def isEnabled (s : Settings) (name : String) : Bool :=
  ((s.rule? name).bind (·.enabled)).getD true

/-- The severity that is set for a rule. -/
def severity? (s : Settings) (name : String) : Option Severity :=
  (s.rule? name).bind (·.severity)

/-- The severity from which on a violation fails the run. -/
def failThreshold (s : Settings) : Severity :=
  s.failOn.getD .error

/-- The enabled rules with their severities and options, in the order of the catalogue. -/
def activeRules (s : Settings) : List Rule :=
  (RuleKind.all.filter fun kind => s.isEnabled kind.name).map fun kind =>
    { kind := RuleKind.ofName kind.name ((s.rule? kind.name).bind (·.text? "alias"))
      severity := (s.severity? kind.name).getD .error }

end Settings

end SliceLint
