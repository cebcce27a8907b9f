import SliceLint.Report
import SliceLint.Violation.Codec

set_option autoImplicit false

/-! # Reports in JSON -/

namespace SliceLint

namespace Report

/-- The report as JSON. -/
def toJson (r : Report) : Json :=
  .ofMembers [("violations", .array (r.violations.map Violation.toJson)),
    ("files_checked", .ofNat r.filesChecked)]

/-- Read a list of violations. -/
def violationsOfJson? : Json → Option (List Violation)
  | .array elements => elements.mapM Violation.ofJson?
  | _ => none

/-- Read a report. -/
def ofJson? (v : Json) : Option Report := do
  match ← v.record? ["violations", "files_checked"] with
  | [violations, filesChecked] =>
    some {
      violations := ← Json.required? violationsOfJson? violations
      filesChecked := ← Json.required? Json.count? filesChecked }
  | _ => none

end Report

end SliceLint
