import SliceLint.Layer
import SliceLint.Text

set_option autoImplicit false

/-! # Slices

A slice is a directory directly below a layer. Its full path `layer/name` identifies it, and every
path below that directory classifies to it. -/

namespace SliceLint

/-- A named slice of a layer. -/
structure Slice where
  /-- The layer that the slice belongs to. -/
  layer : Layer
  /-- The name of the slice's directory. -/
  name : String
  deriving DecidableEq, Repr

namespace Slice

/-- The path of the slice's directory, which is also the path of its public entry point. -/
def fullPath (s : Slice) : String :=
  s.layer.name ++ "/" ++ s.name

/-- The slice that a normalised path lies in: `layer/name`, alone or followed by a slash and more.
The name must not be empty. -/
def classify? (path : String) : Option Slice :=
  match Text.segments path with
  | root :: name :: _ =>
    match Layer.ofName? root with
    | some layer => if name.isEmpty then none else some ⟨layer, name⟩
    | none => none
  | _ => none

end Slice

end SliceLint
