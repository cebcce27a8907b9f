set_option autoImplicit false

/-! # Severities -/

namespace SliceLint

/-- How serious a violation is. -/
inductive Severity where
  | info
  | warning
  | error
  deriving DecidableEq, Repr

namespace Severity

/-- The word for a severity. -/
def name : Severity → String
  | info => "info"
  | warning => "warning"
  | error => "error"

/-- Severities in increasing order. -/
def rank : Severity → Nat
  | info => 0
  | warning => 1
  | error => 2

/-- The severity with a given name. -/
def ofName? (s : String) : Option Severity :=
  [info, warning, error].find? fun severity => severity.name == s

/-- Reading a severity's own name finds it. -/
@[simp] theorem ofName?_name (severity : Severity) : ofName? severity.name = some severity := by
  cases severity <;> decide

/-- Whether a severity reaches a threshold. -/
def reaches (severity threshold : Severity) : Bool :=
  threshold.rank ≤ severity.rank

end Severity

end SliceLint
