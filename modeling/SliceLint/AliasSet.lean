import SliceLint.Text

set_option autoImplicit false

/-! # Alias sets

Path aliases are plain text at the start of a specifier, such as `@/`. A set of them is kept
longest first, so that the first alias a path begins with is also the longest such alias. -/

namespace SliceLint

/-- Distinct non-empty aliases, longest first. -/
structure AliasSet where
  /-- The aliases in the order in which they are tried. -/
  aliases : List String
  deriving DecidableEq, Repr

namespace AliasSet

/-- The elements of a list, each once, in the order of their first occurrence. -/
def firstOccurrences (xs : List String) : List String :=
  xs.foldl (fun seen x => if x ∈ seen then seen else seen ++ [x]) []

/-- The set of the non-empty texts of a list. Aliases of equal byte length keep their order. -/
def ofList (xs : List String) : AliasSet where
  aliases := (firstOccurrences (xs.filter (· ≠ ""))).mergeSort
    fun a b => b.utf8ByteSize ≤ a.utf8ByteSize

/-- The longest alias that a path begins with. -/
def match? (set : AliasSet) (path : String) : Option String :=
  set.aliases.find? fun a => Text.startsWith a path

/-- Slash-normalise a path and cut the longest matching alias off, once. The alias is reported. -/
def strip (set : AliasSet) (path : String) : String × Option String :=
  let path := Text.slashed path
  match set.match? path with
  | some a => (((Text.dropPrefix? a path).getD path), some a)
  | none => (path, none)

/-- The path that an alias stands before. -/
def normalize (set : AliasSet) (path : String) : String :=
  (set.strip path).1

/-- The alias that is assumed where none is configured. -/
def defaultAlias : String := "@/"

/-- The set of the default alias alone. -/
def fallback : AliasSet := ofList [defaultAlias]

end AliasSet

/-- The form in which aliases are compared: a trailing star is dropped, and a slash ends it. -/
def normalizeAlias (s : String) : String :=
  let stem := (Text.dropSuffix? "*" s).getD s
  if Text.endsWith "/" stem then stem else stem ++ "/"

end SliceLint
