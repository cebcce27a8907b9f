import SliceLint.Text

set_option autoImplicit false

/-! # File paths

Paths are kept as the texts they were given as, since they are printed that way. Two paths are
compared through their components: repeated slashes, trailing slashes and inner `.` segments do
not count, a leading `.` does. -/

namespace SliceLint

namespace Path

/-- A component of a path. -/
inductive Component where
  /-- The leading slash of an absolute path. -/
  | root
  /-- A leading `.`. -/
  | current
  /-- A `..`. -/
  | parent
  /-- Any other segment. -/
  | name (s : String)
  deriving DecidableEq, Repr

/-- The component that a segment after the first position stands for. -/
def segmentComponent? (segment : String) : Option Component :=
  if segment = "" ∨ segment = "." then none
  else if segment = ".." then some .parent
  else some (.name segment)

/-- Whether a path starts at the root of the file system. -/
def isAbsolute (p : String) : Bool :=
  Text.startsWith "/" p

/-- The components of a path. -/
def components (p : String) : List Component :=
  let segments := Text.segments p
  let rest := segments.filterMap segmentComponent?
  if isAbsolute p then .root :: rest
  else if segments.head? = some "." then .current :: rest
  else rest

/-- Whether two paths have the same components. -/
def equal (p q : String) : Bool :=
  components p = components q

/-! ## Order -/

/-- The place of a kind of component in the order of components. -/
def Component.rank : Component → Nat
  | root => 0
  | current => 1
  | parent => 2
  | name _ => 3

/-- Components are ordered by kind; names among each other by their characters. -/
def Component.compare (a b : Component) : Ordering :=
  match a, b with
  | .name s, .name t => Ord.compare s t
  | a, b => Ord.compare a.rank b.rank

/-- Lexicographic order of lists of components. -/
def compareComponents : List Component → List Component → Ordering
  | [], [] => .eq
  | [], _ :: _ => .lt
  | _ :: _, [] => .gt
  | a :: as, b :: bs => (a.compare b).then (compareComponents as bs)

/-- Paths are ordered component by component. -/
def compare (p q : String) : Ordering :=
  compareComponents (components p) (components q)

/-! ## Joining and climbing -/

/-- The path `rel`, taken from the directory `base`. An absolute `rel` stands for itself. -/
def join (base rel : String) : String :=
  if isAbsolute rel || base == "" then rel
  else if Text.endsWith "/" base then base ++ rel
  else base ++ "/" ++ rel

/-- The part of a path in front of its segments: a leading slash, or a leading `.`. -/
def lead (p : String) : String :=
  if isAbsolute p then "/"
  else if (Text.segments p).head? = some "." then "."
  else ""

/-- Drop the segments at the end that denote no component. -/
def dropEmptyEnd (segments : List String) : List String :=
  (segments.reverse.dropWhile fun s => segmentComponent? s = none).reverse

/-- The segments of a path after its lead, up to the last one that denotes a component. -/
def body (p : String) : List String :=
  dropEmptyEnd (Text.segments (String.ofList (p.toList.drop (lead p).length)))

/-- The path without its last component. The root and the empty path have no parent. -/
def parent? (p : String) : Option String :=
  match body p with
  | [] => if lead p = "." then some "" else none
  | segments => some (lead p ++ Text.joinSegments (dropEmptyEnd segments.dropLast))

/-- A path followed by its parent, its parent's parent and so on, at most `fuel` of them. -/
def ancestorsUpTo : Nat → String → List String
  | 0, _ => []
  | fuel + 1, p =>
    match parent? p with
    | some q => p :: ancestorsUpTo fuel q
    | none => [p]

/-- A path followed by all the directories above it. -/
def ancestors (p : String) : List String :=
  ancestorsUpTo (p.length + 1) p

/-- The name of the file that a path ends in. -/
def fileName? (p : String) : Option String :=
  match (components p).getLast? with
  | some (.name s) => some s
  | _ => none

/-- The part of the file name after its last dot. A dot that starts the name does not count. -/
def extension? (p : String) : Option String := do
  let name ← fileName? p
  let ext := (name.toList.reverse.takeWhile (· != '.')).reverse
  if name.toList.length ≤ ext.length + 1 then none
  else some (String.ofList ext)

end Path

end SliceLint
