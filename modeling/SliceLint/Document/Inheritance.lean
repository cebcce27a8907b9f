import SliceLint.Document
import SliceLint.FileTree

set_option autoImplicit false

/-! # Extended documents

A document takes over the entries of the documents that it extends: later ones over earlier ones,
and its own over all of theirs. A reference that leads nowhere, to an unreadable document, or back
to a document that is being loaded contributes nothing. -/

namespace SliceLint

namespace Document

/-- The document that a reference names, seen from a directory: the path itself, or the path with
`.json` added. -/
def locateInherited? (w : Workspace) (dir reference : String) : Option String :=
  let candidate := Path.join dir reference
  if w.isFile candidate then some candidate
  else if Text.endsWith ".json" reference then none
  else
    let candidate := Path.join dir (reference ++ ".json")
    if w.isFile candidate then some candidate else none

/-- The document in a file. -/
def load? (w : Workspace) (path : String) : Option Document :=
  (w.readText? path).bind parse?

/-- The directory that a document's references start from. -/
def directoryOf (path : String) : String :=
  (Path.parent? path).getD ""

/-- What the extended documents contribute, the later over the earlier. -/
def mergeInherited (parents : List Document) : List (String × List String) × Option String :=
  parents.foldl
    (fun acc parent => (extendPaths acc.1 parent.paths, parent.baseUrl.or acc.2)) ([], none)

/-- A document over what it inherits. -/
def overlay (d : Document) (parents : List Document) : Document :=
  let base := mergeInherited parents
  { paths := extendPaths base.1 d.paths
    baseUrl := d.baseUrl.or base.2
    inherited := d.inherited }

/-- Load a document with everything that it extends. `chain` holds the places of the documents
that are being loaded; a document that is among them contributes nothing. -/
def loadChain? (w : Workspace) : Nat → List Place → String → Option Document
  | 0, _, _ => none
  | fuel + 1, chain, path =>
    match w.locate path with
    | .error _ => none
    | .ok place =>
      if place ∈ chain then none
      else match load? w path with
        | none => none
        | some d =>
          some (d.overlay (d.inherited.filterMap fun reference =>
            (locateInherited? w (directoryOf path) reference).bind
              (loadChain? w fuel (place :: chain))))

/-- Load a document with everything that it extends. A chain cannot be longer than there are
files. -/
def loadMerged? (w : Workspace) (path : String) : Option Document :=
  loadChain? w (w.tree.files.length + 1) [] path

end Document

end SliceLint
