import SliceLint.AliasCache
import SliceLint.Finding
import SliceLint.Glob
import SliceLint.Settings

set_option autoImplicit false

/-! # Analyzers

An analyzer classifies the imports of files and runs its rules on them. The rules do not know of
each other, so one import may have several findings. -/

namespace SliceLint

/-- What an analyzer is made from. -/
structure AnalyzerOptions where
  /-- The directory that holds the layers. -/
  root : Option String
  /-- The rules, in the order in which they run. -/
  rules : List Rule
  aliasOptions : AliasOptions
  /-- Patterns of import targets that no rule looks at. -/
  ignoredImports : List String

/-- Rules, with what is needed to classify imports. -/
structure Analyzer where
  root : Option String
  rules : List Rule
  aliases : AliasCache
  ignored : List Glob

/-- A text that is no pattern of import targets. -/
structure IgnorePatternError where
  pattern : String
  cause : Glob.Error

namespace IgnorePatternError

/-- What is said about the text. -/
def message (e : IgnorePatternError) : String :=
  "Invalid ignore pattern `" ++ e.pattern ++ "`: " ++ e.cause.message

end IgnorePatternError

namespace AnalyzerOptions

/-- Add settings. What was said before stays, and the lists grow. -/
def withSettings (o : AnalyzerOptions) (s : Settings) : AnalyzerOptions :=
  let more := s.resolve.aliasOptions
  { o with
    root := some (o.root.getD s.source.root)
    aliasOptions := ⟨o.aliasOptions.aliases ++ more.aliases, o.aliasOptions.document.or more.document⟩
    ignoredImports := o.ignoredImports ++ s.resolve.ignoredImports }

/-- A pattern of import targets. -/
def ignorePattern (pattern : String) : Except IgnorePatternError Glob :=
  match Glob.parse pattern with
  | .ok g => .ok g
  | .error e => .error ⟨pattern, e⟩

/-- The analyzer of some options. Fails at the first text that is no pattern. -/
def build (o : AnalyzerOptions) : Except IgnorePatternError Analyzer := do
  let ignored ← o.ignoredImports.mapM ignorePattern
  .ok ⟨o.root, o.rules, .ofOptions o.aliasOptions, ignored⟩

end AnalyzerOptions

namespace Analyzer

/-- Classify an import of a file. The aliases of the file are remembered. -/
def classify (w : Workspace) (a : Analyzer) (file specifier : String) : Edge × Analyzer :=
  let (aliases, cache) := a.aliases.get w file
  (Edge.classify (treePath file a.root) specifier aliases, { a with aliases := cache })

/-- Whether no rule looks at a target. -/
def ignores (a : Analyzer) (target : String) : Bool :=
  a.ignored.any fun g => g.isMatch target

/-- What a rule finds about a classified import. -/
def apply (rule : Rule) (specifier : String) (e : Edge) : Option Finding :=
  (rule.kind.evaluate specifier e).map fun diagnostic =>
    ⟨rule, diagnostic, rule.kind.ownTarget? specifier e⟩

/-- What the rules find about a classified import. -/
def judge (a : Analyzer) (specifier : String) (e : Edge) : List Finding :=
  if a.ignores e.target then [] else a.rules.filterMap fun rule => apply rule specifier e

/-- Check an import of a file. -/
def check (w : Workspace) (a : Analyzer) (file specifier : String) : EdgeReport × Analyzer :=
  let (e, a) := a.classify w file specifier
  (⟨e, a.judge specifier e⟩, a)

/-- The document that cannot be read when an import of a file is classified. -/
def unreadable? (w : Workspace) (a : Analyzer) (file : String) : Option String :=
  a.aliases.unreadable? w file

end Analyzer

end SliceLint
