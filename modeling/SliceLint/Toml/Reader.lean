import SliceLint.Toml.Scalar

set_option autoImplicit false

/-! # Reading TOML documents

Values, keys, and the lines of a document. Tables may be spelled in several ways, and TOML forbids
to define one twice; a table under construction therefore remembers whether it was only implied by
a longer header and whether it came from a dotted key. -/

namespace SliceLint

namespace Toml

/-- How deep arrays and inline tables may be nested, and how long a dotted key may be. -/
def depthLimit : Nat := 80

/-! ## Keys -/

/-- Whether a character may stand in a key without quotes. -/
def isBareKeyChar (c : Char) : Bool :=
  c.isAlphanum || c == '_' || c == '-'

/-- Read one part of a key. -/
def readSimpleKey? : List Char → Option (String × List Char)
  | '"' :: rest => (readBasic? (rest.length + 1) rest).map fun r => (String.ofList r.1, r.2)
  | '\'' :: rest => (readLiteral? rest).map fun r => (String.ofList r.1, r.2)
  | cs =>
    match cs.takeWhile isBareKeyChar with
    | [] => none
    | name => some (String.ofList name, cs.dropWhile isBareKeyChar)

/-- Read the parts of a key with dots between them. -/
def readKeyParts? : Nat → List Char → Option (List String × List Char)
  | 0, _ => none
  | fuel + 1, cs => do
    let (part, rest) ← readSimpleKey? (skipBlanks cs)
    match skipBlanks rest with
    | '.' :: rest =>
      let (parts, rest) ← readKeyParts? fuel rest
      some (part :: parts, rest)
    | rest => some ([part], rest)

/-- Read a key. -/
def readKey? (cs : List Char) : Option (List String × List Char) :=
  (readKeyParts? (cs.length + 1) cs).filter fun r => r.1.length < depthLimit

/-! ## Comments and line ends -/

/-- What is left after a comment, which must hold printable characters only. -/
def skipComment : List Char → List Char
  | '#' :: rest => rest.dropWhile isPrintable
  | cs => cs

/-- What is left after the end of a line: blanks, perhaps a comment, and a line break or the end of
the document. -/
def endOfLine? (cs : List Char) : Option (List Char) :=
  match skipComment (skipBlanks cs) with
  | [] => some []
  | rest => lineBreak? rest

/-- What is left after blanks, comments and line breaks, as they may stand in an array. -/
def skipFiller : Nat → List Char → List Char
  | 0, cs => cs
  | fuel + 1, cs =>
    let rest := skipBlanks cs
    match lineBreak? (skipComment rest) with
    | some rest => skipFiller fuel rest
    | none => rest

/-! ## Tables under construction -/

/-- A table under construction. -/
inductive Node where
  /-- A complete value. -/
  | value (v : Toml)
  /-- A table that may still grow. It is *implied* if only a longer header or a dotted key names
  it, and *dotted* if a dotted key made it. -/
  | table (implied dotted : Bool) (entries : List (String × Node))
  /-- An array of tables, the entries of each. -/
  | tables (elements : List (List (String × Node)))
  deriving Inhabited

/-- The node at a key. -/
def lookupNode? (entries : List (String × Node)) (key : String) : Option Node :=
  (entries.find? fun e => e.1 == key).map (·.2)

/-- Put a node at a key, instead of the one that is there. -/
def putNode (entries : List (String × Node)) (key : String) (node : Node) :
    List (String × Node) :=
  if entries.any fun e => e.1 == key then
    entries.map fun e => if e.1 == key then (key, node) else e
  else entries ++ [(key, node)]

/-- Go down to the table at `path`, making tables that are missing, and change its entries. With
`dotted` the path is part of a dotted key, which must not enter a table that was defined before.
`act` is told whether the table came from a dotted key. -/
def changeAt (dotted : Bool) (act : Bool → List (String × Node) → Option (List (String × Node))) :
    List String → Bool → List (String × Node) → Option (List (String × Node))
  | [], isDotted, entries => act isDotted entries
  | key :: path, _, entries =>
    match lookupNode? entries key with
    | none => do
      let made ← changeAt dotted act path dotted []
      some (putNode entries key (.table true dotted made))
    | some (.value _) => none
    | some (.tables elements) =>
      match elements.getLast? with
      | none => none
      | some last => do
        let changed ← changeAt dotted act path false last
        some (putNode entries key (.tables (elements.dropLast ++ [changed])))
    | some (.table implied isDotted inner) =>
      if dotted && !implied then none
      else do
        let changed ← changeAt dotted act path isDotted inner
        some (putNode entries key (.table implied isDotted changed))

/-- Define a value in a table. A plain key must not meet a table from a dotted key, nor a dotted
key one from a header; and no key is defined twice. -/
def defineAt (path : List String) (key : String) (v : Node) (entries : List (String × Node)) :
    Option (List (String × Node)) :=
  changeAt true
    (fun isDotted inner =>
      if isDotted == path.isEmpty then none
      else if (lookupNode? inner key).isSome then none
      else some (inner ++ [(key, v)]))
    path false entries

/-- Open the table of a header. It may have been implied before, but not by a dotted key. -/
def openTable (path : List String) (key : String) (entries : List (String × Node)) :
    Option (List (String × Node)) :=
  changeAt false
    (fun _ inner =>
      match lookupNode? inner key with
      | none => some (inner ++ [(key, .table false false [])])
      | some (.table true false below) => some (putNode inner key (.table false false below))
      | some _ => none)
    path false entries

/-- Add a table to the array of a header. -/
def openElement (path : List String) (key : String) (entries : List (String × Node)) :
    Option (List (String × Node)) :=
  changeAt false
    (fun _ inner =>
      match lookupNode? inner key with
      | none => some (inner ++ [(key, .tables [[]])])
      | some (.tables elements) => some (putNode inner key (.tables (elements ++ [[]])))
      | some _ => none)
    path false entries

/-- Change the entries of the table that a header opened. -/
def changeOpened (header : List String)
    (act : List (String × Node) → Option (List (String × Node)))
    (entries : List (String × Node)) : Option (List (String × Node)) :=
  changeAt false (fun _ inner => act inner) header false entries

mutual

/-- The value of a finished node. -/
def Node.toToml : Node → Toml
  | .value v => v
  | .table _ _ entries => .table (Node.entriesToToml entries)
  | .tables elements => .array (Node.elementsToToml elements)

/-- The values of finished entries. -/
def Node.entriesToToml : List (String × Node) → List (String × Toml)
  | [] => []
  | (key, node) :: rest => (key, node.toToml) :: Node.entriesToToml rest

/-- The tables of a finished array. -/
def Node.elementsToToml : List (List (String × Node)) → List Toml
  | [] => []
  | entries :: rest => .table (Node.entriesToToml entries) :: Node.elementsToToml rest

end

/-- The last part of a key and the parts before it. -/
def splitKey? (key : List String) : Option (List String × String) :=
  match key.getLast? with
  | some last => some (key.dropLast, last)
  | none => none

/-! ## Values -/

mutual

/-- Read a value inside `depth` arrays and inline tables. -/
def readValue : Nat → Nat → List Char → Option (Toml × List Char)
  | 0, _, _ => none
  | fuel + 1, depth, cs =>
    match cs with
    | '[' :: rest =>
      if depth + 1 < depthLimit then
        (readElements fuel (depth + 1) rest).map fun r => (.array r.1, r.2)
      else none
    | '{' :: rest =>
      if depth + 1 < depthLimit then
        match skipBlanks rest with
        | '}' :: rest => some (.table [], rest)
        | _ =>
          (readInline fuel (depth + 1) [] rest).map fun r =>
            (.table (Node.entriesToToml r.1), r.2)
      else none
    | 't' :: 'r' :: 'u' :: 'e' :: rest => some (.boolean true, rest)
    | 'f' :: 'a' :: 'l' :: 's' :: 'e' :: rest => some (.boolean false, rest)
    | '"' :: _ => (readString? cs).map fun r => (.string r.1, r.2)
    | '\'' :: _ => (readString? cs).map fun r => (.string r.1, r.2)
    | _ => readNumeric? cs

/-- Read the elements of an array after its opening bracket or after a comma. -/
def readElements : Nat → Nat → List Char → Option (List Toml × List Char)
  | 0, _, _ => none
  | fuel + 1, depth, cs =>
    match skipFiller cs.length cs with
    | ']' :: rest => some ([], rest)
    | cs =>
      match readValue fuel depth cs with
      | none => none
      | some (v, rest) =>
        match skipFiller rest.length rest with
        | ']' :: rest => some ([v], rest)
        | ',' :: rest => (readElements fuel depth rest).map fun r => (v :: r.1, r.2)
        | _ => none

/-- Read the entries of an inline table up to its closing brace. -/
def readInline :
    Nat → Nat → List (String × Node) → List Char → Option (List (String × Node) × List Char)
  | 0, _, _, _ => none
  | fuel + 1, depth, entries, cs =>
    match readKey? cs with
    | some (key, '=' :: rest) =>
      match readValue fuel depth (skipBlanks rest) with
      | none => none
      | some (v, rest) =>
        match splitKey? key with
        | none => none
        | some (path, last) =>
          match defineAt path last (.value v) entries with
          | none => none
          | some entries =>
            match skipBlanks rest with
            | '}' :: rest => some (entries, rest)
            | ',' :: rest => readInline fuel depth entries rest
            | _ => none
    | _ => none

end

/-! ## Documents -/

/-- What one line of a document says. -/
inductive Line where
  | blank
  | header (key : List String)
  | elementHeader (key : List String)
  | define (key : List String) (v : Toml)

/-- Read one line, which is not empty. -/
def readLine? (cs : List Char) : Option (Line × List Char) :=
  match skipBlanks cs with
  | '[' :: '[' :: rest => do
    match ← readKey? rest with
    | (key, ']' :: ']' :: rest) => some (.elementHeader key, ← endOfLine? rest)
    | _ => none
  | '[' :: rest => do
    match ← readKey? rest with
    | (key, ']' :: rest) => some (.header key, ← endOfLine? rest)
    | _ => none
  | cs =>
    match endOfLine? cs with
    | some rest => some (.blank, rest)
    | none => do
      match ← readKey? cs with
      | (key, '=' :: rest) =>
        let (v, rest) ← readValue (2 * rest.length + 1) 0 (skipBlanks rest)
        some (.define key v, ← endOfLine? rest)
      | _ => none

/-- Read the lines of a document. `header` is the path of the table that the lines belong to. -/
def readLines : Nat → List String → List (String × Node) → List Char →
    Option (List (String × Node))
  | _, _, entries, [] => some entries
  | 0, _, _, _ => none
  | fuel + 1, header, entries, cs =>
    match readLine? cs with
    | none => none
    | some (line, rest) =>
      match line with
      | .blank => readLines fuel header entries rest
      | .header key =>
        match splitKey? key with
        | none => none
        | some (path, last) =>
          match openTable path last entries with
          | none => none
          | some entries => readLines fuel key entries rest
      | .elementHeader key =>
        match splitKey? key with
        | none => none
        | some (path, last) =>
          match openElement path last entries with
          | none => none
          | some entries => readLines fuel key entries rest
      | .define key v =>
        match splitKey? key with
        | none => none
        | some (path, last) =>
          match changeOpened header (defineAt path last (.value v)) entries with
          | none => none
          | some entries => readLines fuel header entries rest

/-- The top-level table of a document. A leading byte order mark is accepted. -/
def parse? (s : String) : Option (List (String × Toml)) :=
  let cs := match s.toList with
    | '\uFEFF' :: rest => rest
    | cs => cs
  (readLines (cs.length + 1) [] [] cs).map Node.entriesToToml

end Toml

end SliceLint
