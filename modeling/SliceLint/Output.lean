import SliceLint.Json.Printer
import SliceLint.Report.Codec

set_option autoImplicit false

/-! # Output

How reports are written for people and for programs. -/

namespace SliceLint

/-- The form of a report. -/
inductive OutputFormat where
  /-- Several lines for each violation, in colours, and a summary. -/
  | text
  /-- The report as JSON. -/
  | json
  /-- One line for each violation. -/
  | compact
  /-- Several lines for each violation, and a summary. -/
  | pretty
  deriving DecidableEq, Repr

namespace OutputFormat

/-- All formats. -/
def all : List OutputFormat :=
  [text, json, compact, pretty]

/-- The name of a format. -/
def name : OutputFormat → String
  | text => "text"
  | json => "json"
  | compact => "compact"
  | pretty => "pretty"

/-- The format of a given name. -/
def ofName? (s : String) : Option OutputFormat :=
  all.find? fun f => f.name == s

end OutputFormat

/-- A colour of terminals. -/
inductive Colour where
  | red
  | green
  | yellow
  | blue
  deriving DecidableEq, Repr

namespace Colour

/-- The sequence that switches to a colour. -/
def start : Colour → String
  | red => "\x1b[31m"
  | green => "\x1b[32m"
  | yellow => "\x1b[33m"
  | blue => "\x1b[34m"

/-- The sequence that switches back. -/
def stop : String := "\x1b[0m"

/-- A text in a colour. -/
def paint (c : Colour) (s : String) : String :=
  c.start ++ s ++ stop

end Colour

namespace Severity

/-- The colour of a severity. -/
def colour : Severity → Colour
  | error => .red
  | warning => .yellow
  | info => .blue

end Severity

namespace Report

/-- The last line of a report. -/
def summary (r : Report) : String :=
  let colour : Colour :=
    if 0 < r.count .error then .red else if 0 < r.count .warning then .yellow else .green
  colour.paint ("Found " ++ Text.decimal (r.count .error) ++ " error(s), "
    ++ Text.decimal (r.count .warning) ++ " warning(s), " ++ Text.decimal (r.count .info)
    ++ " info(s) in " ++ Text.decimal r.filesChecked ++ " file(s)")

/-- The report in a format. -/
def render (r : Report) : OutputFormat → String
  | .text =>
    String.join (r.violations.map fun v => v.layout (v.severity.colour.paint v.severity.name) ++ "\n")
      ++ r.summary ++ "\n"
  | .json => r.toJson.toPrettyText ++ "\n"
  | .compact => String.join (r.violations.map fun v => v.display ++ "\n")
  | .pretty => String.join (r.violations.map fun v => v.format ++ "\n") ++ r.summary ++ "\n"

end Report

end SliceLint
