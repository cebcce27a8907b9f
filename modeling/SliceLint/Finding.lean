import SliceLint.Rule
import SliceLint.Violation

set_option autoImplicit false

/-! # Findings

A rule's diagnostic for an import, and the advice that follows from it. -/

namespace SliceLint

/-- What one rule found about an import. -/
structure Finding where
  rule : Rule
  diagnostic : Diagnostic
  /-- The target that the rule itself resolved, in place of the one of the import. -/
  target : Option String
  deriving DecidableEq, Repr

/-- Everything found about one import, in the order of the rules. -/
structure EdgeReport where
  edge : Edge
  findings : List Finding
  deriving DecidableEq, Repr

namespace Finding

/-- The specifier that would satisfy the rule, where there is one. -/
def fix? (f : Finding) (e : Edge) : Option String :=
  match f.diagnostic with
  | .layerViolation .. => none
  | .crossImportViolation .. => none
  | .invalidCrossNotation _ _ expected => some expected
  | .publicApiViolation _ entry =>
    some (if e.relative then Specifier.relativeTo e.fromPath entry
      else e.stripped.getD "" ++ entry)
  | .pathViolation => some (Specifier.relativeTo e.fromPath (f.target.getD e.target))

/-- The advice in words. -/
def advice? (f : Finding) (e : Edge) : Option String :=
  match f.diagnostic with
  | .layerViolation _ toLayer =>
    some ("move the shared code down to a layer below `" ++ toLayer.name ++ "`")
  | .crossImportViolation _ toSlice =>
    e.source.map fun source =>
      "expose a cross-import API as `" ++ toSlice ++ "/@x/" ++ source.name ++ "`"
  | .invalidCrossNotation .. | .publicApiViolation .. =>
    (f.fix? e).map fun fixed => "import from `" ++ fixed ++ "`"
  | .pathViolation => (f.fix? e).map fun fixed => "use the relative path `" ++ fixed ++ "`"

/-- The advice, with a replacement for the specifier where there is one. -/
def suggestion? (f : Finding) (location : Location) (e : Edge) : Option Suggestion :=
  (f.advice? e).map fun message => ⟨message, (f.fix? e).map fun fixed => ⟨location, fixed⟩⟩

/-- The finding as a violation at a place. -/
def violation (f : Finding) (location : Location) (e : Edge) : Violation where
  code := f.rule.kind.code
  rule := f.rule.kind.name
  severity := f.rule.severity
  location := location
  message := f.diagnostic.message
  diagnostic := some f.diagnostic
  suggestion := f.suggestion? location e

end Finding

end SliceLint
