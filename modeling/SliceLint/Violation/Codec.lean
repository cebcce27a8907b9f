import SliceLint.Json.Record
import SliceLint.Violation

set_option autoImplicit false

/-! # Violations in JSON

Writing violations as JSON, and reading them back. Fields that are not known are passed over. -/

namespace SliceLint

namespace Severity

/-- The severity as JSON. -/
def toJson (s : Severity) : Json :=
  .ofText s.name

/-- Read a severity. -/
def ofJson? (v : Json) : Option Severity :=
  v.choice?.bind ofName?

end Severity

namespace Location

/-- The location as JSON. -/
def toJson (l : Location) : Json :=
  .ofMembers [("file", .ofText l.file), ("line", .ofNat l.line), ("column", .ofNat l.column),
    ("offset", .ofNat l.offset), ("length", .ofNat l.length)]

/-- Read a location. -/
def ofJson? (v : Json) : Option Location := do
  match ← v.record? ["file", "line", "column", "offset", "length"] with
  | [file, line, column, offset, length] =>
    some {
      file := ← Json.required? Json.text? file
      line := ← Json.required? Json.count? line
      column := ← Json.required? Json.count? column
      offset := ← Json.required? Json.count? offset
      length := ← Json.required? Json.count? length }
  | _ => none

end Location

namespace Replacement

/-- The replacement as JSON. -/
def toJson (r : Replacement) : Json :=
  .ofMembers [("location", r.location.toJson), ("new_text", .ofText r.newText)]

/-- Read a replacement. -/
def ofJson? (v : Json) : Option Replacement := do
  match ← v.record? ["location", "new_text"] with
  | [location, newText] =>
    some {
      location := ← Json.required? Location.ofJson? location
      newText := ← Json.required? Json.text? newText }
  | _ => none

end Replacement

namespace Suggestion

/-- The suggestion as JSON. -/
def toJson (s : Suggestion) : Json :=
  .ofMembers [("message", .ofText s.message),
    ("replacement", Json.ofOption Replacement.toJson s.replacement)]

/-- Read a suggestion. -/
def ofJson? (v : Json) : Option Suggestion := do
  match ← v.record? ["message", "replacement"] with
  | [message, replacement] =>
    some {
      message := ← Json.required? Json.text? message
      replacement := ← Json.optional? Replacement.ofJson? replacement }
  | _ => none

end Suggestion

namespace Diagnostic

/-- A kind of diagnostic with the fields of its data. -/
def tagged (id : String) (fields : List (String × Json)) : Json :=
  .ofMembers [("id", .ofText id), ("data", .ofMembers fields)]

/-- The diagnostic as JSON: its kind, and its data if it has any. -/
def toJson : Diagnostic → Json
  | layerViolation fromLayer toLayer =>
    tagged "layerViolation"
      [("fromLayer", .ofText fromLayer.name), ("toLayer", .ofText toLayer.name)]
  | crossImportViolation fromSlice toSlice =>
    tagged "crossImportViolation" [("fromSlice", .ofText fromSlice), ("toSlice", .ofText toSlice)]
  | invalidCrossNotation fromSlice importPath expectedPath =>
    tagged "invalidCrossNotation"
      [("fromSlice", .ofText fromSlice), ("importPath", .ofText importPath),
        ("expectedPath", .ofText expectedPath)]
  | publicApiViolation slice publicApi =>
    tagged "publicApiViolation" [("slice", .ofText slice), ("publicApi", .ofText publicApi)]
  | pathViolation => .ofMembers [("id", .ofText "pathViolation")]

/-- Read a layer. -/
def layerOfJson? (v : Json) : Option Layer :=
  v.choice?.bind Layer.ofName?

/-- Read the data of a kind of diagnostic. -/
def ofData? (id : String) (data : Option Json) : Option Diagnostic := do
  if id = "pathViolation" then
    match data with
    | none => some pathViolation
    | some .null => some pathViolation
    | some _ => none
  else
    let data ← data
    let _ ← data.members?
    let text := fun key => (data.get? key).bind Json.text?
    if id = "layerViolation" then
      some (.layerViolation (← (data.get? "fromLayer").bind layerOfJson?)
        (← (data.get? "toLayer").bind layerOfJson?))
    else if id = "crossImportViolation" then
      some (.crossImportViolation (← text "fromSlice") (← text "toSlice"))
    else if id = "invalidCrossNotation" then
      some (.invalidCrossNotation (← text "fromSlice") (← text "importPath")
        (← text "expectedPath"))
    else if id = "publicApiViolation" then
      some (.publicApiViolation (← text "slice") (← text "publicApi"))
    else none

/-- Read a diagnostic. -/
def ofJson? (v : Json) : Option Diagnostic := do
  match ← v.record? ["id", "data"] with
  | [id, data] => ofData? (← Json.required? Json.choice? id) data
  | _ => none

end Diagnostic

namespace Violation

/-- The violation as JSON. -/
def toJson (v : Violation) : Json :=
  .ofMembers (
    [("code", .ofText v.code), ("rule", .ofText v.rule), ("severity", v.severity.toJson),
      ("location", v.location.toJson), ("message", .ofText v.message)]
    ++ (match v.diagnostic with
        | some d => [("diagnostic", d.toJson)]
        | none => [])
    ++ [("suggestion", Json.ofOption Suggestion.toJson v.suggestion)])

/-- Read a violation. -/
def ofJson? (v : Json) : Option Violation := do
  match ← v.record?
      ["code", "rule", "severity", "location", "message", "diagnostic", "suggestion"] with
  | [code, rule, severity, location, message, diagnostic, suggestion] =>
    some {
      code := ← Json.required? Json.text? code
      rule := ← Json.required? Json.text? rule
      severity := ← Json.required? Severity.ofJson? severity
      location := ← Json.required? Location.ofJson? location
      message := ← Json.required? Json.text? message
      diagnostic := ← Json.optional? Diagnostic.ofJson? diagnostic
      suggestion := ← Json.optional? Suggestion.ofJson? suggestion }
  | _ => none

end Violation

end SliceLint
