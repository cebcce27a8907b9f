import SliceLint.FileTree
import SliceLint.IgnoreFile

set_option autoImplicit false

/-! # Discovery of files

All files below a directory, less those that ignore files exclude. The ignore files in a path's
directories and in all directories above the start count; those nearer to the path win. A file in
an ignored directory is not found, and the start itself is never ignored. -/

namespace SliceLint

/-- A file below the start of a search. -/
structure FoundFile where
  /-- The path, beginning with the start. -/
  path : String
  /-- The path from the start on. -/
  relative : String
  deriving DecidableEq, Repr

/-- A directory whose ignore files count for a path, and the path as these files see it. -/
structure IgnoreScope where
  place : Place
  base : String
  candidate : String

/-- Why a directory cannot be searched. -/
inductive DiscoveryError where
  /-- The start does not exist. -/
  | missing (path : String) (cause : LookupError)
  /-- Ignore files above the start have lines that are no patterns. -/
  | badIgnoreFiles (messages : List String)

namespace DiscoveryError

/-- What is said about the search. -/
def message : DiscoveryError → String
  | missing path cause => path ++ ": IO error for operation on " ++ path ++ ": " ++ cause.message
  | badIgnoreFiles messages => "\n".intercalate messages

end DiscoveryError

namespace Discovery

/-- The ignore files of a directory, by their names from it: those of this tool, and those of
version control. The first ones win over the others. -/
def ignoreNames (respectIgnored : Bool) : List Place :=
  [".ignore"] ::
    if respectIgnored then [[".gitignore"], [".git", "info", "exclude"]] else []

/-- The path of names below a directory. -/
def pathOf (root : String) (names : List String) : String :=
  names.foldl Path.join root

/-- The text of a place. -/
def placeText (p : Place) : String :=
  "/" ++ Text.joinSegments p

/-- The beginnings of a list, the longest first; the list itself is not among them. -/
def properPrefixes (names : List String) : List (List String) :=
  (List.range names.length).reverse.map names.take

/-- The path from the place of the root on, as the directories above it see it. -/
def candidateAbove (root : String) (rootPlace : Place) (path : String) : String :=
  let relative :=
    if Path.equal root "." then path
    else IgnoreRule.dropStart "/"
      (IgnoreRule.dropStart (IgnoreRule.dropStart "./" root) path)
  Path.join (placeText rootPlace) relative

/-- The directories whose ignore files count for a path below the root, the nearest first. -/
def scopes (root : String) (rootPlace : Place) (names : List String) : List IgnoreScope :=
  let path := IgnoreRule.dropStart "./" (pathOf root names)
  (properPrefixes names).map (fun dir =>
      ⟨rootPlace ++ dir, IgnoreRule.dropStart "./" (pathOf root dir), path⟩)
    ++ (properPrefixes rootPlace).map fun place =>
      ⟨place, placeText place, candidateAbove root rootPlace path⟩

/-- The contents of an ignore file of a directory. -/
def ignoreContents (t : FileTree) (place name : Place) : ByteArray :=
  (t.contents? (place ++ name)).getD ByteArray.empty

/-- What the ignore files of one name say about a path. -/
def verdictOf? (t : FileTree) (name : Place) (scopes : List IgnoreScope) (isDirectory : Bool) :
    Option IgnoreVerdict :=
  scopes.findSome? fun s =>
    IgnoreFile.verdict? ⟨s.base, (IgnoreFile.parse (ignoreContents t s.place name)).1⟩
      s.candidate isDirectory

/-- Whether a path below the root is ignored. -/
def isIgnored (t : FileTree) (respectIgnored : Bool) (root : String) (rootPlace : Place)
    (names : List String) (isDirectory : Bool) : Bool :=
  let scopes := scopes root rootPlace names
  (ignoreNames respectIgnored).findSome? (fun name => verdictOf? t name scopes isDirectory)
    = some .ignored

/-- Whether a file is found: neither it nor a directory on the way to it is ignored. -/
def isFound (t : FileTree) (respectIgnored : Bool) (root : String) (rootPlace : Place)
    (names : List String) : Bool :=
  !isIgnored t respectIgnored root rootPlace names false
    && (properPrefixes names).all fun dir =>
      dir.isEmpty || !isIgnored t respectIgnored root rootPlace dir true

/-- The faults of the ignore files above a place, from the outermost directory on. -/
def faultsAbove (t : FileTree) (respectIgnored : Bool) (rootPlace : Place) : List String :=
  (properPrefixes rootPlace).reverse.flatMap fun place =>
    (ignoreNames respectIgnored).flatMap fun name =>
      (IgnoreFile.parse (ignoreContents t place name)).2.map fun e =>
        e.message (placeText (place ++ name))

/-- The files below a directory, or the file itself, sorted by path. A lone hyphen stands for the
standard input, where there are no files. -/
def files (w : Workspace) (respectIgnored : Bool) (root : String) :
    Except DiscoveryError (List FoundFile) :=
  if Path.equal root "-" then .ok []
  else
    match w.locate root with
    | .error cause => .error (.missing root cause)
    | .ok place =>
      if w.tree.hasFile place then .ok [⟨root, ""⟩]
      else
        match faultsAbove w.tree respectIgnored place with
        | [] =>
          let below := w.tree.files.filterMap fun f => place.isPrefixOf? f.1
          let found := below.filter fun names =>
            isFound w.tree respectIgnored root place names
          .ok ((found.map fun names => ⟨pathOf root names, Text.joinSegments names⟩).mergeSort
            fun a b => (Path.compare a.path b.path).isLE)
        | faults => .error (.badIgnoreFiles faults)

end Discovery

end SliceLint
