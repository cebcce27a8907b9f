import SliceLint.Settings
import SliceLint.Toml.Reader

set_option autoImplicit false

/-! # Reading settings

The settings that a TOML document describes. Entries that are not known are passed over, except in
the table of a rule, where they are the rule's options. The tables of sources and aliases may also
be arrays of their entries by position. -/

namespace SliceLint

namespace Toml

/-- The key under which a date stands if it is looked at as a table. -/
def dateKey : String := "$__toml_private_datetime"

/-- The entries of a table. A date counts as a table with one entry, its text. -/
def entries? : Toml → Option (List (String × Toml))
  | table entries => some entries
  | dateTime d => some [(dateKey, .string d.display)]
  | _ => none

/-- A truth value. -/
def bool? : Toml → Option Bool
  | boolean b => some b
  | _ => none

/-- A list of texts. -/
def texts? : Toml → Option (List String)
  | array elements => elements.mapM text?
  | _ => none

/-- The entries of a record by their names. An array gives them by position, and elements beyond
the last name do not count. -/
def fields? (names : List String) : Toml → Option (List (Option Toml))
  | array elements => some (names.zipIdx.map fun n => elements[n.2]?)
  | v => do
    let entries ← v.entries?
    some (names.map (lookup? entries))

/-- An entry that may be missing. -/
def optional? {α : Type} (read : Toml → Option α) : Option Toml → Option (Option α)
  | none => some none
  | some v => (read v).map some

end Toml

namespace Severity

/-- Whether a value may stand beside the name of a severity in a table. -/
def isEmptyValue (allowArray : Bool) : Toml → Bool
  | .table [] => true
  | .array [] => allowArray
  | _ => false

/-- A severity: its name, or a table with its name as the only key and nothing beside it. -/
def ofToml? (allowArray : Bool) : Toml → Option Severity
  | .string s => ofName? s
  | .table [(s, v)] => if isEmptyValue allowArray v then ofName? s else none
  | _ => none

end Severity

namespace SourceSettings

/-- The settings of a table of sources. -/
def ofToml? (v : Toml) : Option SourceSettings := do
  match ← v.fields? ["root", "exclude", "respect_gitignore"] with
  | [root, exclude, respect] =>
    some {
      root := (← Toml.optional? Toml.text? root).getD defaultRoot
      exclude := (← Toml.optional? Toml.texts? exclude).getD []
      respectIgnored := (← Toml.optional? Toml.bool? respect).getD true }
  | _ => none

end SourceSettings

namespace ResolveSettings

/-- The settings of a table of aliases. -/
def ofToml? (v : Toml) : Option ResolveSettings := do
  match ← v.fields? ["tsconfig", "aliases", "alias", "ignore_imports"] with
  | [document, aliases, extraAlias, ignored] =>
    some {
      document := ← Toml.optional? Toml.text? document
      aliases := (← Toml.optional? Toml.texts? aliases).getD []
      extraAlias := ← Toml.optional? Toml.text? extraAlias
      ignoredImports := (← Toml.optional? Toml.texts? ignored).getD [] }
  | _ => none

end ResolveSettings

namespace RuleSettings

/-- The settings of a rule's table. -/
def ofToml? (v : Toml) : Option RuleSettings := do
  let entries ← v.entries?
  some {
    enabled := ← Toml.optional? Toml.bool? (Toml.lookup? entries "enabled")
    severity := ← Toml.optional? (Severity.ofToml? false) (Toml.lookup? entries "severity")
    options := entries.filter fun e => e.1 != "enabled" && e.1 != "severity" }

end RuleSettings

namespace Settings

/-- The settings of every rule's table. -/
def rulesOfToml? (v : Toml) : Option (List (String × RuleSettings)) := do
  let entries ← v.entries?
  entries.mapM fun e => (RuleSettings.ofToml? e.2).map fun r => (e.1, r)

/-- The settings of a document's top-level table. -/
def ofEntries? (entries : List (String × Toml)) : Option Settings := do
  some {
    failOn := ← Toml.optional? (Severity.ofToml? true) (Toml.lookup? entries "fail_on")
    source := (← Toml.optional? SourceSettings.ofToml? (Toml.lookup? entries "analyzer")).getD
      .default
    resolve := (← Toml.optional? ResolveSettings.ofToml? (Toml.lookup? entries "resolve")).getD
      .default
    rules := (← Toml.optional? rulesOfToml? (Toml.lookup? entries "rules")).getD [] }

/-- The settings of a text. -/
def parse? (s : String) : Option Settings :=
  (Toml.parse? s).bind ofEntries?

end Settings

end SliceLint
