import SliceLint.IgnorePattern
import SliceLint.Path
import SliceLint.Text.Blank

set_option autoImplicit false

/-! # Ignore files

An ignore file lists patterns of paths below its directory, one a line. A later line wins over an
earlier one; a line with an exclamation mark brings paths back. -/

namespace SliceLint

/-- A line of an ignore file. -/
structure IgnoreRule where
  tokens : List PathToken
  /-- Whether matching paths are kept, and not ignored. -/
  keeps : Bool
  /-- Whether only directories match. -/
  directoriesOnly : Bool

/-- A line that is no pattern. -/
structure IgnoreLineError where
  number : Nat
  line : String
  cause : PathPatternError

namespace IgnoreLineError

/-- What is said about the line of a file. -/
def message (e : IgnoreLineError) (path : String) : String :=
  path ++ ": line " ++ Text.decimal e.number ++ ": error parsing glob '" ++ e.line ++ "': "
    ++ e.cause.message

end IgnoreLineError

/-- What an ignore file says about a path. -/
inductive IgnoreVerdict where
  | ignored
  | kept
  deriving DecidableEq, Repr

/-- The patterns of an ignore file, and the directory that they are about. -/
structure IgnoreFile where
  base : String
  rules : List IgnoreRule

namespace IgnoreRule

/-- A text without a given start, if it begins with it. -/
def dropStart (start s : String) : String :=
  (Text.dropPrefix? start s).getD s

/-- What is left of a line after the parts that are no pattern: whether it keeps paths, whether it
is about paths from the directory on, and the rest. -/
def readMarks (line : String) : Bool × Bool × String :=
  if Text.startsWith "\\!" line || Text.startsWith "\\#" line then
    (false, false, String.ofList (line.toList.drop 1))
  else
    let keeps := Text.startsWith "!" line
    let line := dropStart "!" line
    (keeps, Text.startsWith "/" line, dropStart "/" line)

/-- The text of the pattern that is matched. One without a slash matches in every directory, and
one for everything in a directory does not match the directory itself. -/
def patternText (anchored : Bool) (s : String) : String :=
  let s :=
    if !anchored && !s.toList.contains '/' && !Text.startsWith "**/" s && s != "**" then
      "**/" ++ s
    else s
  if Text.endsWith "/**" s then s ++ "/*" else s

/-- The rule of a line, which has a pattern. -/
def ofLine (line : String) : Except PathPatternError IgnoreRule := do
  let (keeps, anchored, rest) := readMarks line
  let directoriesOnly := Text.endsWith "/" rest
  let rest :=
    match Text.dropSuffix? "/" rest with
    | some stem => (Text.dropSuffix? "\\" stem).getD stem
    | none => rest
  .ok ⟨← PathToken.parse (patternText anchored rest), keeps, directoriesOnly⟩

/-- A line without the blanks at its end, unless the last one is escaped. -/
def trimLine (line : String) : String :=
  if Text.endsWith "\\ " line then line else Text.trimEnd line

/-- The rules of numbered lines, and the lines that are no patterns. Comments and empty lines say
nothing. -/
def ofLines : Nat → List String → List IgnoreRule × List IgnoreLineError
  | _, [] => ([], [])
  | number, line :: rest =>
    let (rules, errors) := ofLines (number + 1) rest
    let trimmed := trimLine line
    if Text.startsWith "#" line || trimmed.isEmpty then (rules, errors)
    else
      match ofLine trimmed with
      | .ok rule => (rule :: rules, errors)
      | .error cause => (rules, ⟨number, trimmed, cause⟩ :: errors)

end IgnoreRule

namespace IgnoreFile

/-- The lines of a file. The bytes after the last line feed are a line if there are any. -/
def byteLines : List UInt8 → List (List UInt8)
  | [] => []
  | b :: bs =>
    if b = 10 then [] :: byteLines bs
    else match byteLines bs with
      | [] => [[b]]
      | line :: lines => (b :: line) :: lines

/-- The text of a line, without a carriage return at its end. -/
def lineText? (bytes : List UInt8) : Option String :=
  String.fromUTF8? ⟨((if bytes.getLast? = some 13 then bytes.dropLast else bytes)).toArray⟩

/-- The texts of lines, up to the first one that is no text. -/
def texts : List (List UInt8) → List String
  | [] => []
  | line :: rest =>
    match lineText? line with
    | some s => s :: texts rest
    | none => []

/-- The lines of an ignore file. Byte order marks in front of the first one do not count. -/
def lines (contents : ByteArray) : List String :=
  match texts (byteLines contents.toList) with
  | [] => []
  | first :: rest => String.ofList (first.toList.dropWhile (· == '\uFEFF')) :: rest

/-- The rules of an ignore file, and its lines that are no patterns. -/
def parse (contents : ByteArray) : List IgnoreRule × List IgnoreLineError :=
  IgnoreRule.ofLines 1 (lines contents)

/-- A path as the patterns see it: without a leading `./`, and without the directory of the file
in front, unless the path is a mere name. -/
def relative (f : IgnoreFile) (path : String) : String :=
  let path := IgnoreRule.dropStart "./" path
  if Path.equal f.base "." || !path.toList.contains '/' then path
  else
    match Text.dropPrefix? f.base path with
    | some rest => IgnoreRule.dropStart "/" rest
    | none => path

/-- What the file says about a path: the last rule that matches decides. -/
def verdict? (f : IgnoreFile) (path : String) (isDirectory : Bool) : Option IgnoreVerdict :=
  let path := f.relative path
  (f.rules.reverse.find? fun rule =>
    (!rule.directoriesOnly || isDirectory) && PathToken.isMatch rule.tokens path).map fun rule =>
      if rule.keeps then .kept else .ignored

end IgnoreFile

end SliceLint
