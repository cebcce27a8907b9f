import SliceLint.Text

set_option autoImplicit false

/-! # Module specifiers

The text between the quotes of an import. A relative specifier is resolved against the directory
of the importing file, lexically: `..` drops a segment, `.` and empty segments do nothing. In the
other direction `relativeTo` finds a relative specifier that leads to a given path. -/

namespace SliceLint

namespace Specifier

/-- Whether a specifier is written relative to the importing file. -/
def isRelative (s : String) : Bool :=
  s == "." || s == ".." || Text.startsWith "./" s || Text.startsWith "../" s

/-- Whether a character divides the segments of a specifier as written. -/
def isSeparator (c : Char) : Bool :=
  c == '/' || c == '\\'

/-- The segments of a specifier as written, divided by slashes of either kind. -/
def parts (s : String) : List String :=
  (Text.split isSeparator s.toList).map String.ofList

/-- The directory segments of a file path: all segments but the last. -/
def directory (file : String) : List String :=
  (Text.segments file).dropLast

/-- Follow the segments of a specifier from a directory, given by its segments. The walk fails
when it climbs above the directory's first segment. -/
def follow : List String → List String → Option (List String)
  | dir, [] => some dir
  | dir, part :: rest =>
    if part = "" ∨ part = "." then follow dir rest
    else if part = ".." then
      match dir with
      | [] => none
      | _ :: _ => follow dir.dropLast rest
    else follow (dir ++ [part]) rest

/-- The path that a relative specifier denotes in a file of the tree, if it stays inside it. -/
def resolve? (file specifier : String) : Option String :=
  (follow (directory file) (parts specifier)).map Text.joinSegments

/-- The number of leading elements that two lists have in common. -/
def commonLength : List String → List String → Nat
  | a :: as, b :: bs => if a = b then commonLength as bs + 1 else 0
  | _, _ => 0

/-- A relative specifier that leads from a file to a path of the same tree. Empty segments of the
path are dropped. -/
def relativeTo (file target : String) : String :=
  let dir := directory file
  let path := (Text.segments target).filter (· ≠ "")
  let common := commonLength dir path
  let rest := path.drop common
  if dir.length = common then
    if rest = [] then "." else Text.joinSegments ("." :: rest)
  else
    Text.joinSegments (List.replicate (dir.length - common) ".." ++ rest)

end Specifier

end SliceLint
