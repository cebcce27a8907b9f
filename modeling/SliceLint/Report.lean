import SliceLint.Path
import SliceLint.Violation

set_option autoImplicit false

/-! # Reports

The violations of a run and the number of files that were checked. -/

namespace SliceLint

/-- The outcome of checking some files. -/
structure Report where
  violations : List Violation
  filesChecked : Nat
  deriving DecidableEq, Repr

namespace Report

/-- Nothing checked yet. -/
def empty : Report := ⟨[], 0⟩

/-- How many violations have a severity. -/
def count (r : Report) (severity : Severity) : Nat :=
  (r.violations.filter fun v => v.severity = severity).length

/-- Whether some violation has at least a severity. -/
def reaches (r : Report) (threshold : Severity) : Bool :=
  r.violations.any fun v => v.severity.reaches threshold

/-- Whether there is an error. -/
def hasErrors (r : Report) : Bool :=
  r.violations.any fun v => v.severity = .error

/-- Add a violation. -/
def push (r : Report) (v : Violation) : Report :=
  { r with violations := r.violations ++ [v] }

/-- Add another report. -/
def extend (r other : Report) : Report :=
  ⟨r.violations ++ other.violations, r.filesChecked + other.filesChecked⟩

/-- Locations are ordered by file, line and column. -/
def compareLocations (a b : Location) : Ordering :=
  (Path.compare a.file b.file).then ((compare a.line b.line).then (compare a.column b.column))

/-- Sort by location. Violations at one location keep their order. -/
def sort (r : Report) : Report :=
  { r with
    violations := r.violations.mergeSort fun a b =>
      (compareLocations a.location b.location).isLE }

end Report

end SliceLint
