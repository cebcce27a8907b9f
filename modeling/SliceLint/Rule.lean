import SliceLint.AliasSet
import SliceLint.Rule.Verdict
import SliceLint.Severity

set_option autoImplicit false

/-! # Rules

The four rules with their catalogue data. A rule looks at one classified import and gives at most
one diagnostic. -/

namespace SliceLint

/-- What a rule checks. -/
inductive RuleKind where
  /-- No import from a higher layer. -/
  | layerImports
  /-- No sibling import without the escape notation. -/
  | crossImport
  /-- Only public entry points of other slices. -/
  | publicApiImports
  /-- Relative imports within a slice; specifiers may also start with an alias of the rule's own. -/
  | pathChecker (ownAlias : Option String)
  deriving DecidableEq, Repr

/-- A rule with the severity of its violations. -/
structure Rule where
  kind : RuleKind
  severity : Severity
  deriving DecidableEq, Repr

namespace RuleKind

/-- The stable code of a rule. -/
def code : RuleKind → String
  | layerImports => "FSD001"
  | crossImport => "FSD002"
  | publicApiImports => "FSD003"
  | pathChecker _ => "FSD004"

/-- The name of a rule in settings and on the command line. -/
def name : RuleKind → String
  | layerImports => "layer-imports"
  | crossImport => "cross-import"
  | publicApiImports => "public-api-imports"
  | pathChecker _ => "path-checker"

/-- What a rule demands, in one line. -/
def description : RuleKind → String
  | layerImports => "Forbids importing from a higher layer"
  | crossImport => "Forbids sibling-slice imports without @x/<importer> notation"
  | publicApiImports => "Requires cross-slice imports to go through the slice's public API"
  | pathChecker _ => "Requires imports within a slice to be relative"

/-- The path-checker with an alias of its own; an empty alias counts as none. -/
def pathCheckerWith (ownAlias : String) : RuleKind :=
  .pathChecker (if ownAlias.isEmpty then none else some (normalizeAlias ownAlias))

/-- The rule of a given name. Any name but the first three means the path-checker. -/
def ofName (name : String) (ownAlias : Option String) : RuleKind :=
  if name = layerImports.name then layerImports
  else if name = crossImport.name then crossImport
  else if name = publicApiImports.name then publicApiImports
  else match ownAlias with
    | some a => pathCheckerWith a
    | none => pathChecker none

/-- Every rule, in the order in which they run. -/
def all : List RuleKind :=
  [layerImports, crossImport, publicApiImports, pathChecker none]

/-- What is left of a specifier after the rule's own alias. -/
def stripOwnAlias? (kind : RuleKind) (specifier : String) : Option String :=
  match kind with
  | pathChecker (some a) => Text.dropPrefix? a (Text.slashed specifier)
  | _ => none

/-- The target that the rule itself resolved, where the project's aliases found no slice. -/
def ownTarget? (kind : RuleKind) (specifier : String) (e : Edge) : Option String :=
  if e.dest.isSome || Specifier.isRelative specifier then none
  else kind.stripOwnAlias? specifier

/-- The diagnostic of a rule for an import. -/
def evaluate (kind : RuleKind) (specifier : String) (e : Edge) : Option Diagnostic :=
  match kind with
  | layerImports =>
    match e.source, e.dest with
    | some source, some dest => Verdict.layering source dest
    | _, _ => none
  | crossImport =>
    match e.source, e.dest with
    | some source, some dest => Verdict.crossImport source specifier dest
    | _, _ => none
  | publicApiImports =>
    match e.source, e.dest with
    | some source, some dest => Verdict.publicApi source e.target dest
    | _, _ => none
  | pathChecker _ =>
    let relative := Specifier.isRelative specifier
    if e.dest.isSome || relative then Verdict.pathStyle relative e.source e.dest
    else
      Verdict.pathStyle relative e.source
        ((kind.stripOwnAlias? specifier).bind Slice.classify?)

end RuleKind

namespace Rule

/-- All rules with the severity `error`. -/
def all : List Rule :=
  RuleKind.all.map fun kind => ⟨kind, .error⟩

end Rule

end SliceLint
