import SliceLint.Json

set_option autoImplicit false

/-! # Records in JSON

How structures are read from JSON: from an object by the names of the fields, or from an array of
exactly the fields by position. -/

namespace SliceLint

namespace Json

/-- The largest count that can be written. -/
def maxCount : Nat := Nat.pow 2 64 - 1

/-- A count. -/
def count? (v : Json) : Option Nat :=
  v.nat?.filter (· ≤ maxCount)

/-- The fields of a record by their names; a missing field of an object is `none`. -/
def record? (names : List String) : Json → Option (List (Option Json))
  | array elements => if elements.length = names.length then some (elements.map some) else none
  | v => do
    let members ← v.members?
    some (names.map fun name => (members.reverse.find? fun m => m.1 == name).map (·.2))

/-- A field that must be there. -/
def required? {α : Type} (read : Json → Option α) : Option Json → Option α
  | some v => read v
  | none => none

/-- A field that may be missing or null. -/
def optional? {α : Type} (read : Json → Option α) : Option Json → Option (Option α)
  | none => some none
  | some null => some none
  | some v => (read v).map some

/-- The name of an alternative without contents: a text, or an object that maps it to null. -/
def choice? (v : Json) : Option String :=
  match v.members? with
  | some [(name, null)] => some name
  | some _ => none
  | none => v.text?

/-- An optional value. -/
def ofOption {α : Type} (write : α → Json) : Option α → Json
  | some a => write a
  | none => null

end Json

end SliceLint
