import SliceLint.FileTree

set_option autoImplicit false

/-! # The nearest document

The document that applies to a directory is the nearest one in it or above it. The directories
above are taken from the text of the path. -/

namespace SliceLint

namespace Document

/-- The names of configuration documents, in order of preference. -/
def fileNames : List String :=
  ["tsconfig.json", "jsconfig.json"]

/-- The nearest configuration document in a directory or above it. -/
def find? (w : Workspace) (start : String) : Option String :=
  let start := if Path.isAbsolute start then start else Path.join w.cwdPath start
  ((Path.ancestors start).flatMap fun dir => fileNames.map (Path.join dir)).find? w.isFile

end Document

end SliceLint
