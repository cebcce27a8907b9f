import SliceLint.Path
import SliceLint.Source.Import
import SliceLint.Source.Scanner

set_option autoImplicit false

/-! # Languages

The languages whose imports are known, each with the extensions of its files. -/

namespace SliceLint

/-- A language of source files. -/
inductive Language where
  /-- TypeScript. -/
  | typescript
  /-- TypeScript or JavaScript with elements. -/
  | tsx
  deriving DecidableEq, Repr

namespace Language

/-- All languages, in the order in which they are tried. -/
def all : List Language :=
  [typescript, tsx]

/-- The name of a language. -/
def name : Language → String
  | typescript => "typescript"
  | tsx => "tsx"

/-- The file extensions of a language, dots included. -/
def extensions : Language → List String
  | typescript => [".ts", ".mts", ".cts"]
  | tsx => [".tsx", ".js", ".jsx", ".mjs", ".cjs"]

/-- Whether angle brackets may begin an element. -/
def hasElements : Language → Bool
  | typescript => false
  | tsx => true

/-- The language of a file, by its extension. -/
def ofPath? (path : String) : Option Language :=
  match Path.extension? path with
  | some e => all.find? fun language => ("." ++ e) ∈ language.extensions
  | none => none

/-- The imports of a source, in the order of its tree. -/
def imports (language : Language) (source : String) : List Import :=
  match Source.parse? language.hasElements source.toList with
  | some tree => tree.imports source.toList
  | none => []

end Language

end SliceLint
