import SliceLint.Layer

set_option autoImplicit false

/-! # Diagnostics

What a rule has to say about an import. Each diagnostic carries the data from which its message
and its fix follow. -/

namespace SliceLint

/-- A finding about one import. -/
inductive Diagnostic where
  /-- A layer imports from a higher one. -/
  | layerViolation (fromLayer toLayer : Layer)
  /-- A slice imports a sibling without the escape notation. -/
  | crossImportViolation (fromSlice toSlice : String)
  /-- The escape notation names a slice other than the importer. -/
  | invalidCrossNotation (fromSlice importPath expectedPath : String)
  /-- An import reaches into another slice past its public entry point. -/
  | publicApiViolation (slice publicApi : String)
  /-- An import within one slice is not relative. -/
  | pathViolation
  deriving DecidableEq, Repr

namespace Diagnostic

/-- The identifier of a kind of diagnostic. -/
def id : Diagnostic → String
  | layerViolation .. => "layerViolation"
  | crossImportViolation .. => "crossImportViolation"
  | invalidCrossNotation .. => "invalidCrossNotation"
  | publicApiViolation .. => "publicApiViolation"
  | pathViolation => "pathViolation"

/-- The data of a diagnostic, as named texts in a fixed order. -/
def data : Diagnostic → List (String × String)
  | layerViolation fromLayer toLayer =>
    [("fromLayer", fromLayer.name), ("toLayer", toLayer.name)]
  | crossImportViolation fromSlice toSlice => [("fromSlice", fromSlice), ("toSlice", toSlice)]
  | invalidCrossNotation fromSlice importPath expectedPath =>
    [("fromSlice", fromSlice), ("importPath", importPath), ("expectedPath", expectedPath)]
  | publicApiViolation slice publicApi => [("slice", slice), ("publicApi", publicApi)]
  | pathViolation => []

/-- The sentence that is shown to the user. -/
def message : Diagnostic → String
  | layerViolation fromLayer toLayer =>
    "layer `" ++ fromLayer.name ++ "` must not import from higher layer `" ++ toLayer.name ++ "`"
  | crossImportViolation fromSlice toSlice =>
    "`" ++ fromSlice ++ "` must not import sibling slice `" ++ toSlice
      ++ "`; use `@x/` notation if this dependency is intended"
  | invalidCrossNotation fromSlice importPath expectedPath =>
    "cross-import `" ++ importPath ++ "` from `" ++ fromSlice
      ++ "` must name the importing slice: `" ++ expectedPath ++ "`"
  | publicApiViolation slice publicApi =>
    "imports from `" ++ slice ++ "` must go through its public API `" ++ publicApi ++ "`"
  | pathViolation => "imports within the same slice must be relative"

/-- The message with its identifier in front. -/
def display (d : Diagnostic) : String :=
  d.id ++ ": " ++ d.message

end Diagnostic

end SliceLint
