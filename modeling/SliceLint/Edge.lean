import SliceLint.AliasSet
import SliceLint.Slice
import SliceLint.Specifier

set_option autoImplicit false

/-! # Import edges

What the rules know of one import: the slices at both ends, the normalised target, and how the
specifier was written. Everything here is text manipulation; no file is looked at. -/

namespace SliceLint

/-- A file's path relative to the root of the source tree. A path outside the root is only
slash-normalised. -/
def treePath (file : String) (root : Option String) : String :=
  let undotted := fun (s : String) => (Text.dropPrefix? "./" (Text.slashed s)).getD (Text.slashed s)
  let file := undotted file
  match root with
  | none => file
  | some root =>
    let root := String.ofList (Text.dropEndWhile (· == '/') (undotted root).toList)
    if root = "" ∨ root = "." then file
    else ((Text.dropPrefix? root file).bind (Text.dropPrefix? "/")).getD file

/-- An import, classified at both ends. -/
structure Edge where
  /-- The importing file, relative to the source tree. -/
  fromPath : String
  /-- The slice of the importing file. -/
  source : Option Slice
  /-- The slice of the import's target. -/
  dest : Option Slice
  /-- The target: alias cut off, or the relative specifier resolved. -/
  target : String
  /-- The alias that was cut off the specifier. -/
  stripped : Option String
  /-- Whether the specifier was written relative to the importing file. -/
  relative : Bool
  deriving DecidableEq, Repr

namespace Edge

/-- The target of a specifier and the alias cut off it. A relative specifier that climbs out of
the tree is its own target. -/
def targetOf (fromPath specifier : String) (aliases : AliasSet) : String × Option String :=
  if Specifier.isRelative specifier then
    ((Specifier.resolve? fromPath specifier).getD (Text.slashed specifier), none)
  else aliases.strip specifier

/-- Classify both ends of an import. A target that still looks relative belongs to no slice. -/
def classify (fromPath specifier : String) (aliases : AliasSet) : Edge :=
  let fromPath := Text.slashed fromPath
  let target := targetOf fromPath specifier aliases
  { fromPath
    source := Slice.classify? fromPath
    dest := if Specifier.isRelative target.1 then none else Slice.classify? target.1
    target := target.1
    stripped := target.2
    relative := Specifier.isRelative specifier }

/-- Whether both ends lie in one slice. -/
def sameSlice (e : Edge) : Bool :=
  match e.source, e.dest with
  | some a, some b => a == b
  | _, _ => false

end Edge

end SliceLint
