import SliceLint.Json.Comments
import SliceLint.Json.Number
import SliceLint.Json.Reader

set_option autoImplicit false

/-! # Configuration documents

The parts of a `tsconfig.json` or `jsconfig.json` that matter for aliases: `paths` and `baseUrl`
of its `compilerOptions`, and the documents that it `extends`. Everything else in a document is
passed over, but has to be well-formed. -/

namespace SliceLint

/-- A configuration document. -/
structure Document where
  /-- The path patterns and their targets, in the order of the document. -/
  paths : List (String × List String)
  /-- The directory that targets start from. -/
  baseUrl : Option String
  /-- References to the documents that this one extends. -/
  inherited : List String
  deriving DecidableEq, Repr

namespace Document

/-- A document that says nothing. -/
def empty : Document := ⟨[], none, []⟩

/-! ## Ordered maps -/

/-- Set the value of a key. A key that is there already keeps its position. -/
def setPath (key : String) (targets : List String) :
    List (String × List String) → List (String × List String)
  | [] => [(key, targets)]
  | (k, ts) :: rest =>
    if k = key then (key, targets) :: rest else (k, ts) :: setPath key targets rest

/-- Set every entry of the second map in the first, in order. -/
def extendPaths (base more : List (String × List String)) : List (String × List String) :=
  more.foldl (fun acc entry => setPath entry.1 entry.2 acc) base

/-! ## Reading -/

/-- How deep a value among the `paths` may be nested. -/
def maxTargetDepth : Nat := 124

mutual

/-- Whether every literal of a value denotes something. -/
def denotes : Json → Bool
  | .number literal => !(Json.double literal).isInfinite
  | .string literal => (Json.unescape? literal).isSome
  | .array elements => denotesAll elements
  | .object members => denotesMembers members
  | _ => true

/-- Whether every literal of some values denotes something. -/
def denotesAll : List Json → Bool
  | [] => true
  | v :: vs => denotes v && denotesAll vs

/-- Whether every literal of some members denotes something. -/
def denotesMembers : List (List Char × Json) → Bool
  | [] => true
  | (key, v) :: ms => (Json.unescape? key).isSome && denotes v && denotesMembers ms

end

/-- The texts among the elements of an array; other values have no targets. -/
def targets : Json → List String
  | .array elements => elements.filterMap Json.text?
  | _ => []

/-- The `paths` of a document. A repeated key keeps its first position and its last value. -/
def readPaths? (v : Json) : Option (List (String × List String)) := do
  let members ← v.members?
  if members.all fun m => m.2.depth ≤ maxTargetDepth && denotes m.2 then
    some (extendPaths [] (members.map fun m => (m.1, targets m.2)))
  else none

/-- The value of a field, which must not occur twice. -/
def field? (members : List (String × Json)) (name : String) : Option (Option Json) :=
  match members.filter fun m => m.1 == name with
  | [] => some none
  | [m] => some (some m.2)
  | _ => none

/-- The fields of a record, given as an object or as an array of the values in order. A missing
field is `none`. -/
def fields? (names : List String) : Json → Option (List (Option Json))
  | .array elements =>
    if elements.length ≤ names.length then
      some (elements.map some ++ List.replicate (names.length - elements.length) none)
    else none
  | v => do
    let members ← v.members?
    names.mapM (field? members)

/-- A text that may be absent. -/
def optionalText? : Option Json → Option (Option String)
  | none => some none
  | some .null => some none
  | some v => v.text?.map some

/-- The references to extended documents: one text or a list of them. -/
def readInherited? : Option Json → Option (List String)
  | none => some []
  | some .null => some []
  | some (.array elements) => elements.mapM Json.text?
  | some v => v.text?.map ([·])

/-- The `baseUrl` and `paths` of the compiler options. -/
def readOptions? : Option Json → Option (Option String × List (String × List String))
  | none => some (none, [])
  | some .null => some (none, [])
  | some v => do
    match ← fields? ["baseUrl", "paths"] v with
    | [baseUrl, paths] =>
      let baseUrl ← optionalText? baseUrl
      match paths with
      | none => some (baseUrl, [])
      | some paths => some (baseUrl, ← readPaths? paths)
    | _ => none

/-- The document that a JSON value describes. -/
def ofJson? (v : Json) : Option Document := do
  match ← fields? ["extends", "compilerOptions"] v with
  | [inherited, options] =>
    let inherited ← readInherited? inherited
    let (baseUrl, paths) ← readOptions? options
    some { paths, baseUrl, inherited }
  | _ => none

/-- The document of a text with comments and trailing commas. -/
def parse? (text : String) : Option Document :=
  (Json.parse? (Jsonc.strip text)).bind ofJson?

/-! ## Aliases -/

/-- The alias that a path pattern stands for, if it ends in a wildcard segment. -/
def aliasOfKey? (key : String) : Option String :=
  (Text.dropSuffix? "/*" key).map (· ++ "/")

/-- The aliases of a document's path patterns, each once, in order. -/
def aliases (d : Document) : List String :=
  (d.paths.filterMap fun entry => aliasOfKey? entry.1).foldl
    (fun seen a => if a ∈ seen then seen else seen ++ [a]) []

end Document

end SliceLint
