import SliceLint.Diagnostic
import SliceLint.Edge

set_option autoImplicit false

/-! # Verdicts

The judgement of each rule on slices and paths alone. The escape notation `@x/name` lets the slice
`name` import a sibling: the first `@x` segment with a segment after it counts. -/

namespace SliceLint

namespace Verdict

/-- A layer must not import from a higher layer. -/
def layering (source dest : Slice) : Option Diagnostic :=
  if source.layer.rank < dest.layer.rank then
    some (.layerViolation source.layer dest.layer)
  else none

/-! ## The escape notation -/

/-- The segment that introduces an escape. -/
def escapeSegment : String := "@x"

/-- The slice named by the first escape among the segments of a path. -/
def escapeName? : List String → Option String
  | a :: b :: rest => if a = escapeSegment ∧ b ≠ "" then some b else escapeName? (b :: rest)
  | _ => none

/-- The same segments, with `name` as the slice of the first escape. -/
def correctEscape (name : String) : List String → List String
  | a :: b :: rest =>
    if a = escapeSegment ∧ b ≠ "" then a :: name :: rest else a :: correctEscape name (b :: rest)
  | rest => rest

/-- A slice must not import a sibling of its layer, unless an escape names the importer. -/
def crossImport (source : Slice) (specifier : String) (dest : Slice) : Option Diagnostic :=
  if source.layer ≠ dest.layer ∨ source.name = dest.name then none
  else
    let segments := Text.segments (Text.slashed specifier)
    match escapeName? segments with
    | none => some (.crossImportViolation source.fullPath dest.fullPath)
    | some name =>
      if name = source.name then none
      else some (.invalidCrossNotation source.fullPath specifier
        (Text.joinSegments (correctEscape source.name segments)))

/-! ## Entry points and path style -/

/-- Another slice is imported through its root, its `index`, or an escape. -/
def publicApi (source : Slice) (target : String) (dest : Slice) : Option Diagnostic :=
  if source.fullPath = dest.fullPath then none
  else
    let remainder := (Text.dropPrefix? dest.fullPath target).getD target
    if remainder = "" ∨ remainder = "/index" ∨ Text.startsWith "/@x/" remainder then none
    else some (.publicApiViolation dest.fullPath dest.fullPath)

/-- Imports within one slice must be relative. -/
def pathStyle (relative : Bool) (source dest : Option Slice) : Option Diagnostic :=
  if relative then none
  else match source, dest with
    | some a, some b => if a.fullPath = b.fullPath then some .pathViolation else none
    | _, _ => none

end Verdict

end SliceLint
