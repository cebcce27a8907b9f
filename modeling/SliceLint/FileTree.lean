import SliceLint.Path

set_option autoImplicit false

/-! # File trees

A file system as a value: the regular files with their contents, and the directories that hold
nothing. There are no links, so a directory has one place, and `..` leads to the directory above
it. A *place* is the list of names from the root. -/

namespace SliceLint

/-- The names that lead from the root of the file system to a file or directory. -/
abbrev Place := List String

/-- The files and directories of a file system. A directory exists if it is listed or if something
lies below it. -/
structure FileTree where
  files : List (Place × ByteArray)
  directories : List Place

/-- A file tree together with the directory that relative paths start from. -/
structure Workspace where
  tree : FileTree
  cwd : Place

namespace FileTree

/-- The tree without any file. -/
def empty : FileTree := ⟨[], []⟩

/-- The contents of the file at a place. -/
def contents? (t : FileTree) (p : Place) : Option ByteArray :=
  (t.files.find? fun f => f.1 == p).map (·.2)

/-- Whether there is a regular file at a place. -/
def hasFile (t : FileTree) (p : Place) : Bool :=
  t.files.any fun f => f.1 == p

/-- Whether there is a directory at a place. -/
def hasDirectory (t : FileTree) (p : Place) : Bool :=
  p.isEmpty || t.directories.any (fun d => p.isPrefixOf d)
    || t.files.any fun f => p.isPrefixOf f.1 && f.1 != p

/-- Put a file at a place, instead of one that is there. -/
def write (t : FileTree) (p : Place) (contents : ByteArray) : FileTree where
  files := (t.files.filter fun f => f.1 != p) ++ [(p, contents)]
  directories := p.dropLast :: t.directories

/-- Make a directory at a place. -/
def makeDirectory (t : FileTree) (p : Place) : FileTree :=
  { t with directories := p :: t.directories }

/-- Remove a place and everything below it. The directory above stays. -/
def remove (t : FileTree) (p : Place) : FileTree where
  files := t.files.filter fun f => !p.isPrefixOf f.1
  directories := p.dropLast :: t.directories.filter fun d => !p.isPrefixOf d

/-- The names directly below a directory, each once. -/
def children (t : FileTree) (p : Place) : List String :=
  let places := t.files.map (·.1) ++ t.directories
  (places.filterMap fun q => ((p.isPrefixOf? q).bind (·.head?))).eraseDups

end FileTree

/-- Why a path leads nowhere. -/
inductive LookupError where
  /-- A name on the way does not exist. -/
  | notFound
  /-- A name on the way is a file, and the path goes on below it. -/
  | notDirectory
  deriving DecidableEq, Repr

namespace LookupError

/-- The reason, as operating systems word it. -/
def message : LookupError → String
  | notFound => "No such file or directory (os error 2)"
  | notDirectory => "Not a directory (os error 20)"

end LookupError

namespace Workspace

/-- Follow path segments from a place. Every place that a segment is followed from must be a
directory. -/
def walk (t : FileTree) : Place → List String → Except LookupError Place
  | p, [] => .ok p
  | p, segment :: rest =>
    if !t.hasDirectory p then .error (if t.hasFile p then .notDirectory else .notFound)
    else if segment = "" ∨ segment = "." then walk t p rest
    else if segment = ".." then walk t p.dropLast rest
    else walk t (p ++ [segment]) rest

/-- The place that a path denotes, which exists. -/
def locate (w : Workspace) (path : String) : Except LookupError Place :=
  if path.isEmpty then .error .notFound
  else
    match walk w.tree (if Path.isAbsolute path then [] else w.cwd) (Text.segments path) with
    | .error e => .error e
    | .ok p =>
      if w.tree.hasFile p || w.tree.hasDirectory p then .ok p else .error .notFound

/-- Whether a path denotes a regular file. -/
def isFile (w : Workspace) (path : String) : Bool :=
  match w.locate path with
  | .ok p => w.tree.hasFile p
  | .error _ => false

/-- Whether a path denotes a directory. -/
def isDirectory (w : Workspace) (path : String) : Bool :=
  match w.locate path with
  | .ok p => w.tree.hasDirectory p
  | .error _ => false

/-- The text of the file that a path denotes; none if there is no such file or it is not UTF-8. -/
def readText? (w : Workspace) (path : String) : Option String :=
  match w.locate path with
  | .ok p => (w.tree.contents? p).bind String.fromUTF8?
  | .error _ => none

/-- The text of the working directory's path. -/
def cwdPath (w : Workspace) : String :=
  "/" ++ Text.joinSegments w.cwd

/-- Follow path segments as names only, for places that need not exist yet. -/
def lexicalWalk : Place → List String → Place
  | p, [] => p
  | p, segment :: rest =>
    if segment = "" ∨ segment = "." then lexicalWalk p rest
    else if segment = ".." then lexicalWalk p.dropLast rest
    else lexicalWalk (p ++ [segment]) rest

/-- The place that a path names, whether or not it exists. -/
def placeOf (w : Workspace) (path : String) : Place :=
  lexicalWalk (if Path.isAbsolute path then [] else w.cwd) (Text.segments path)

end Workspace

end SliceLint
