import SliceLint.Diagnostic
import SliceLint.Severity
import SliceLint.Text

set_option autoImplicit false

/-! # Violations

A diagnostic at a place in a file, with the severity of the rule that found it and, where one is
known, a suggestion how to mend it. -/

namespace SliceLint

/-- A span of a file. Lines and columns count from one; offsets and lengths are in bytes. -/
structure Location where
  file : String
  line : Nat
  column : Nat
  offset : Nat
  length : Nat
  deriving DecidableEq, Repr

/-- A new text for the span of an import specifier. -/
structure Replacement where
  location : Location
  newText : String
  deriving DecidableEq, Repr

/-- Advice on how to mend a violation. -/
structure Suggestion where
  message : String
  replacement : Option Replacement
  deriving DecidableEq, Repr

/-- A rule violation at a place in a file. -/
structure Violation where
  code : String
  rule : String
  severity : Severity
  location : Location
  message : String
  diagnostic : Option Diagnostic
  suggestion : Option Suggestion
  deriving DecidableEq, Repr

namespace Location

/-- File, line and column, divided by colons. -/
def display (l : Location) : String :=
  l.file ++ ":" ++ Text.decimal l.line ++ ":" ++ Text.decimal l.column

end Location

namespace Violation

/-- The violation on one line. -/
def display (v : Violation) : String :=
  v.location.display ++ ": " ++ v.severity.name ++ " [" ++ v.code ++ "] " ++ v.message

/-- The violation on several lines, the severity written as `label`. -/
def layout (label : String) (v : Violation) : String :=
  v.code ++ " " ++ v.rule ++ " at " ++ v.location.display ++ "\n"
    ++ "  " ++ label ++ ": " ++ v.message ++ "\n"
    ++ (match v.suggestion with
        | some s => "  = help: " ++ s.message ++ "\n"
        | none => "")

/-- The violation on several lines. -/
def format (v : Violation) : String :=
  v.layout v.severity.name

/-- The headline under which the violation is shown next to its source. -/
def headline (v : Violation) : String :=
  "[" ++ v.code ++ "] " ++ v.message

end Violation

end SliceLint
