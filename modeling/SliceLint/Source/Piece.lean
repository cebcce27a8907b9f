import SliceLint.Source.Node

set_option autoImplicit false

/-! # Pieces of a source

Between two brackets a source is a row of pieces: words, punctuation marks, literals, comments and
the groups that smaller brackets enclose. Import and export statements and the calls that load
modules are recognized in such a row, and become nodes. -/

namespace SliceLint

/-- A piece of a source. -/
inductive Piece where
  | word (text : String) (start stop : Nat)
  | mark (text : String)
  | leaf (node : Node)
  /-- A pair of brackets, by the opening one, with the nodes between them. -/
  | group (opening : Char) (start stop : Nat) (inside : List Node)

namespace Piece

/-- The node that a piece stands for; marks have none. -/
def node? : Piece → Option Node
  | word _ start stop => some (.mk .identifier none start stop [])
  | mark _ => none
  | leaf node => some node
  | group _ start stop inside => some (.mk .other none start stop inside)

/-- The nodes of a row of pieces. -/
def nodes (pieces : List Piece) : List Node :=
  pieces.filterMap node?

/-- Whether a piece is a comment. -/
def isComment : Piece → Bool
  | leaf node => node.kind = .comment
  | _ => false

/-- Whether a piece is a given mark. -/
def isMark (text : String) : Piece → Bool
  | mark t => t == text
  | _ => false

/-- Whether a piece is a given word. -/
def isWord (text : String) : Piece → Bool
  | word t _ _ => t == text
  | _ => false

/-- The string that a piece is. -/
def string? : Piece → Option Node
  | leaf node => if node.kind = .string then some node else none
  | _ => none

/-- The comments in front, the first other piece, and what follows it. -/
def next? (pieces : List Piece) : Option (List Piece × Piece × List Piece) :=
  match pieces.dropWhile isComment with
  | [] => none
  | p :: rest => some (pieces.takeWhile isComment, p, rest)

/-! ## Arguments -/

/-- A row divided at its commas. -/
def splitCommas : List Piece → List (List Piece)
  | [] => [[]]
  | p :: rest =>
    if p.isMark "," then [] :: splitCommas rest
    else match splitCommas rest with
      | [] => [[p]]
      | part :: parts => (p :: part) :: parts

/-- The nodes of one argument. Comments in front of it stand by themselves; an argument of several
pieces is one node. -/
def argumentNodes (part : List Piece) : List Node :=
  let comments := nodes (part.takeWhile isComment)
  let rest := part.dropWhile isComment
  let inside := nodes rest
  match rest.filter fun p => !p.isComment with
  | [] => comments
  | [_] => comments ++ inside
  | _ =>
    let start := (inside.head?.map Node.start).getD 0
    let stop := (inside.getLast?.map Node.stop).getD start
    comments ++ [.mk .other none start stop inside]

/-- The nodes of a row of arguments. -/
def argumentsNodes (pieces : List Piece) : List Node :=
  (splitCommas pieces).flatMap argumentNodes

/-! ## Calls -/

/-- The pieces up to the angle bracket that closes `depth + 1` open ones, and what follows it. -/
def typeArguments? : Nat → List Piece → Option (List Piece × List Piece)
  | _, [] => none
  | depth, p :: rest =>
    if p.isMark "<" then (typeArguments? (depth + 1) rest).map fun r => (p :: r.1, r.2)
    else if p.isMark ">" then
      match depth with
      | 0 => some ([], rest)
      | depth + 1 => (typeArguments? depth rest).map fun r => (p :: r.1, r.2)
    else if p.isMark ";" then none
    else (typeArguments? depth rest).map fun r => (p :: r.1, r.2)

/-- What follows the mark of an optional call, with the comments in front of the mark. -/
def afterOptionalMark (pieces : List Piece) : List Piece × List Piece :=
  match next? pieces with
  | some (comments, p, rest) => if p.isMark "?." then (comments, rest) else ([], pieces)
  | none => ([], pieces)

/-- What may stand between a callee and its arguments: an optional-call mark and type arguments.
The type arguments are returned with what follows. -/
def beforeArguments (pieces : List Piece) : List Piece × List Piece :=
  let (before, rest) := afterOptionalMark pieces
  match next? rest with
  | some (comments, p, afterBracket) =>
    if p.isMark "<" then
      match typeArguments? 0 afterBracket with
      | some (inside, rest) => (before ++ comments ++ inside, rest)
      | none => (before, rest)
    else (before, rest)
  | none => (before, rest)

/-- The call of a callee, if arguments follow it. `build` recognizes what stands in type
arguments. -/
def call? (build : List Piece → List Piece) (callee : Node) (pieces : List Piece) :
    Option (Node × List Piece) :=
  let (between, rest) := beforeArguments pieces
  match next? rest with
  | some (comments, .group '(' start stop inside, rest) =>
    let arguments := Node.mk .arguments (some .arguments) start stop inside
    some (.mk .call none callee.start stop
      (callee.withRole .callee :: (nodes (build between) ++ nodes comments ++ [arguments])), rest)
  | _ => none

/-! ## Statements -/

/-- The string that follows, with comments in front of it. -/
def followingString? (pieces : List Piece) : Option (List Piece × Node × List Piece) :=
  match next? pieces with
  | some (comments, p, rest) => p.string?.map fun s => (comments, s, rest)
  | none => none

/-- The clause `require("m")` that follows. -/
def requireClause? (pieces : List Piece) : Option (Node × List Piece) :=
  match next? pieces with
  | some (_, .word "require" start _, rest) =>
    match next? rest with
    | some (_, .group '(' _ stop inside, rest) =>
      match inside.filter fun n => n.kind ≠ .comment with
      | [s] =>
        if s.kind = .string then
          some (.mk .requireClause none start stop
            (inside.map fun n => if n.kind = .comment then n else n.withRole .source), rest)
        else none
      | _ => none
    | _ => none
  | _ => none

/-- The rest of an import statement: the nodes up to its specifier, the last of them with the
specifier, and what follows. Names, stars, commas and braces may stand before the word `from`. -/
def importClause? : Bool → List Piece → Option (List Node × List Piece)
  | _, [] => none
  | named, p :: rest =>
    match p with
    | .word text _ _ =>
      match (if text = "from" then followingString? rest else none) with
      | some (comments, s, rest) => some (nodes comments ++ [s.withRole .source], rest)
      | none => (importClause? true rest).map fun r => (p.node?.toList ++ r.1, r.2)
    | .group '{' _ _ _ => (importClause? named rest).map fun r => (p.node?.toList ++ r.1, r.2)
    | .mark "*" => importClause? named rest
    | .mark "," => importClause? named rest
    | .mark "=" =>
      if named then (requireClause? rest).map fun r => ([r.1], r.2) else none
    | p =>
      if p.isComment then (importClause? named rest).map fun r => (p.node?.toList ++ r.1, r.2)
      else none

/-- The statement that begins with the word `import`. -/
def importStatement? (start : Nat) (pieces : List Piece) : Option (Node × List Piece) :=
  let found :=
    match followingString? pieces with
    | some (comments, s, rest) => some (nodes comments ++ [s.withRole .source], rest)
    | none => importClause? false pieces
  found.map fun r =>
    (.mk .importStatement none start ((r.1.getLast?.map Node.stop).getD start) r.1, r.2)

/-- The rest of an export statement that names a module: words and strings up to `from`. -/
def exportClause? : List Piece → Option (List Node × List Piece)
  | [] => none
  | p :: rest =>
    match p with
    | .word text _ _ =>
      match (if text = "from" then followingString? rest else none) with
      | some (comments, s, rest) => some (nodes comments ++ [s.withRole .source], rest)
      | none => (exportClause? rest).map fun r => (p.node?.toList ++ r.1, r.2)
    | .leaf node =>
      if node.kind = .string || node.kind = .comment then
        (exportClause? rest).map fun r => (node :: r.1, r.2)
      else none
    | _ => none

/-- What is exported from a module: everything, or names in braces. -/
def exportedFrom? (pieces : List Piece) : Option (List Node × List Piece) :=
  match next? pieces with
  | some (comments, .mark "*", rest) =>
    (exportClause? rest).map fun r => (nodes comments ++ r.1, r.2)
  | some (comments, .group '{' start stop inside, rest) =>
    match next? rest with
    | some (more, .word "from" _ _, rest) =>
      (followingString? rest).map fun r =>
        (nodes comments ++ [.mk .other none start stop inside] ++ nodes more ++ nodes r.1
          ++ [r.2.1.withRole .source], r.2.2)
    | _ => none
  | _ => none

/-- The statement that begins with the word `export` and names a module. -/
def exportStatement? (start : Nat) (pieces : List Piece) : Option (Node × List Piece) :=
  let found : Option (List Node × List Piece) :=
    match next? pieces with
    | some (comments, .word "type" _ _, rest) =>
      (exportedFrom? rest).map fun r => (nodes comments ++ r.1, r.2)
    | _ => exportedFrom? pieces
  found.map fun r =>
    (.mk .exportStatement none start ((r.1.getLast?.map Node.stop).getD start) r.1, r.2)

/-! ## Rows -/

/-- Whether a word after this piece is the name of a member. -/
def isMemberAccess : Option Piece → Bool
  | some p => p.isMark "." || p.isMark "?."
  | none => false

/-- Whether a callee after this piece is constructed, and not called. -/
def isNew : Option Piece → Bool
  | some p => p.isWord "new"
  | none => false

/-- The node that begins with a word, if the word begins one here. -/
def construct? (build : List Piece → List Piece) (before : Option Piece) (p : Piece)
    (rest : List Piece) : Option (Node × List Piece) :=
  match p with
  | .word text start stop =>
    if isMemberAccess before then none
    else if text = "import" then
      match call? build (.mk .importKeyword none start stop []) rest with
      | some r => some r
      | none => importStatement? start rest
    else if text = "export" then exportStatement? start rest
    else if text = "require" && !isNew before then
      call? build (.mk .identifier none start stop []) rest
    else none
  | _ => none

/-- A row with its statements and calls recognized; `before` is the last piece in front of it that
is no comment. -/
def reduce : Nat → Option Piece → List Piece → List Piece
  | 0, _, pieces => pieces
  | _ + 1, _, [] => []
  | fuel + 1, before, p :: rest =>
    match construct? (reduce fuel none) before p rest with
    | some (node, rest) => leaf node :: reduce fuel (some (leaf node)) rest
    | none => p :: reduce fuel (if p.isComment then before else some p) rest

/-- A row with its statements and calls recognized. -/
def recognize (pieces : List Piece) : List Piece :=
  reduce pieces.length none pieces

/-- The nodes inside a pair of brackets. -/
def groupNodes (opening : Char) (pieces : List Piece) : List Node :=
  if opening = '(' then argumentsNodes (recognize pieces) else nodes (recognize pieces)

end Piece

end SliceLint
