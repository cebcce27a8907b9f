import SliceLint.Source.Lexeme
import SliceLint.Source.Mode
import SliceLint.Source.Piece

set_option autoImplicit false

/-! # From characters to a tree

`scan` reads one row of pieces, up to the bracket that closes it or the end of the source. Every
call uses up fuel, and as every step consumes a character a multiple of the length is enough. Where
elements are part of the language, an angle bracket in front of an operand is first tried as the
beginning of one; if no element can be read there, it is a mark.

No grammar is checked. What a slash or a brace means is decided by the mode alone, and a source whose
brackets do not match has no tree at all. -/

namespace SliceLint

namespace Source

/-- The bracket that closes an opening one. -/
def closing (opening : Char) : Char :=
  if opening = '(' then ')' else if opening = '[' then ']' else '\x7d'

/-- Whether a character is an opening bracket. -/
def isOpening (c : Char) : Bool :=
  c == '(' || c == '[' || c == '\x7b'

/-- Whether a character is a closing bracket. -/
def isClosing (c : Char) : Bool :=
  c == ')' || c == ']' || c == '\x7d'

/-- The cursor after an expected character. -/
def expect? (c : Char) (cur : Cursor) : Option Cursor :=
  match cur.rest with
  | d :: _ => if d = c then some (cur.skip 1) else none
  | [] => none

/-- A piece without parts, with its length and the mode after it, where the text begins with a
comment, a word, a number, a string or a regular expression. Nothing if the text begins with none
of them; a missing result if it does not end. -/
def simplePiece? (mode : Mode) (cur : Cursor) : Option (Option (Piece × Nat × Mode)) :=
  let leaf := fun (kind : NodeKind) (count : Nat) =>
    Piece.leaf (.mk kind none cur.offset (cur.skip count).offset [])
  match Lexeme.comment? (mode.expect ≠ .operator) cur.rest with
  | some none => some none
  | some (some count) =>
    let newline := (cur.rest.take count).any Lexeme.isLineEnd
    some (some (leaf .comment count, count, { mode with newline := mode.newline || newline }))
  | none =>
    match cur.rest with
    | [] => none
    | c :: rest =>
      if c = '\x22' ∨ c = '\x27' then
        some ((Lexeme.string? c rest).map fun count =>
          (leaf .string (count + 1), count + 1, mode.expecting .operator))
      else if Lexeme.startsNumber cur.rest ∧ mode.member = false then
        let count := Lexeme.number cur.rest
        some (some (leaf .other count, count, mode.expecting .operator))
      else
        let count := Lexeme.word cur.rest
        if 0 < count then
          let text := String.ofList (cur.rest.take count)
          some (some (.word text cur.offset (cur.skip count).offset, count, mode.afterWord text))
        else if c = '/' ∧ mode.expect ≠ .operator then
          match Lexeme.regex? false rest with
          | some count =>
            let flags := Lexeme.word (rest.drop count)
            let count := count + 1 + flags
            some (some (leaf .other count, count, mode.expecting .operator))
          | none => none
        else none

/-- The cursor after the type arguments of an element's name, which `depth` open angle brackets
enclose. -/
def skipTypeArguments : Nat → Nat → Cursor → Option Cursor
  | 0, _, _ => none
  | fuel + 1, depth, cur =>
    match cur.rest with
    | [] => none
    | '=' :: '>' :: _ => skipTypeArguments fuel depth (cur.skip 2)
    | c :: rest =>
      if c = '<' then skipTypeArguments fuel (depth + 1) (cur.skip 1)
      else if c = '>' then
        match depth with
        | 0 => none
        | 1 => some (cur.skip 1)
        | depth + 1 => skipTypeArguments fuel depth (cur.skip 1)
      else if c = '\x22' ∨ c = '\x27' then
        match Lexeme.string? c rest with
        | some count => skipTypeArguments fuel depth (cur.skip (count + 1))
        | none => none
      else skipTypeArguments fuel depth (cur.skip 1)

/-- The cursor after the name of an element and its type arguments. -/
def skipElementName (cur : Cursor) : Option Cursor :=
  let count := (cur.rest.takeWhile Lexeme.isNameChar).length
  if count = 0 then none
  else
    let cur := cur.skip count
    match cur.rest with
    | '<' :: _ => skipTypeArguments (cur.rest.length + 1) 0 cur
    | _ => some cur

/-- The cursor after the closing tag of an element, from its slash on. -/
def skipClosingTag (cur : Cursor) : Option Cursor := do
  let cur ← expect? '/' cur
  let cur := Lexeme.skipTrivia cur.rest.length cur
  let cur := cur.skip (cur.rest.takeWhile Lexeme.isNameChar).length
  expect? '>' (Lexeme.skipTrivia cur.rest.length cur)

mutual

/-- Read a row of pieces; `acc` holds those read so far, the last one first. -/
def scan (elements : Bool) : Nat → Mode → Cursor → List Piece → Option (List Piece × Cursor)
  | 0, _, _, _ => none
  | fuel + 1, mode, cur, acc =>
    match cur.rest with
    | [] => some (acc.reverse, cur)
    | c :: _ =>
      if isClosing c then some (acc.reverse, cur)
      else if Lexeme.isSpace c then
        scan elements fuel { mode with newline := mode.newline || Lexeme.isLineEnd c }
          (cur.skip 1) acc
      else if isOpening c then
        match scanGroup elements fuel (mode.inside c) c cur with
        | some (nodes, stop) =>
          scan elements fuel (mode.afterGroup c) stop
            (.group c cur.offset stop.offset nodes :: acc)
        | none => none
      else if c = '\x60' then
        match scanTemplate elements fuel (cur.skip 1) [] with
        | some (nodes, stop) =>
          scan elements fuel (mode.expecting .operator) stop
            (.leaf (.mk .template none cur.offset stop.offset nodes) :: acc)
        | none => none
      else
        match simplePiece? mode cur with
        | some (some (piece, count, mode)) =>
          scan elements fuel mode (cur.skip count) (piece :: acc)
        | some none => none
        | none =>
          match (if c = '<' && elements && mode.expect ≠ .operator then
              scanElement elements fuel (cur.skip 1) else none) with
          | some (nodes, stop) =>
            scan elements fuel (mode.expecting .operator) stop
              (.leaf (.mk .other none cur.offset stop.offset nodes) :: acc)
          | none =>
            let text := Lexeme.mark cur.rest
            scan elements fuel (mode.afterMark text) (cur.skip text.length) (.mark text :: acc)

/-- Read a pair of brackets; the nodes between them are returned. -/
def scanGroup (elements : Bool) : Nat → Mode → Char → Cursor → Option (List Node × Cursor)
  | 0, _, _, _ => none
  | fuel + 1, mode, opening, cur =>
    match scan elements fuel mode (cur.skip 1) [] with
    | some (pieces, stop) =>
      (expect? (closing opening) stop).map fun stop => (Piece.groupNodes opening pieces, stop)
    | none => none

/-- Read a template after its opening quote; `acc` holds the substitutions so far, the last one
first. -/
def scanTemplate (elements : Bool) : Nat → Cursor → List Node → Option (List Node × Cursor)
  | 0, _, _ => none
  | fuel + 1, cur, acc =>
    match cur.rest with
    | [] => none
    | '\\' :: _ => scanTemplate elements fuel (cur.skip 2) acc
    | '$' :: '\x7b' :: _ =>
      match scanGroup elements fuel (.initial .operand) '\x7b' (cur.skip 1) with
      | some (nodes, stop) =>
        scanTemplate elements fuel stop
          (.mk .substitution none cur.offset stop.offset nodes :: acc)
      | none => none
    | c :: _ =>
      if c = '\x60' then some (acc.reverse, cur.skip 1)
      else scanTemplate elements fuel (cur.skip 1) acc

/-- Read an element after its opening angle bracket; the nodes inside it are returned. -/
def scanElement (elements : Bool) : Nat → Cursor → Option (List Node × Cursor)
  | 0, _ => none
  | fuel + 1, cur =>
    let cur := Lexeme.skipTrivia cur.rest.length cur
    match cur.rest with
    | '>' :: _ => scanChildren elements fuel (cur.skip 1) []
    | _ =>
      match skipElementName cur with
      | some cur => scanAttributes elements fuel cur []
      | none => none

/-- Read the attributes of an element, and what follows them up to the element's end. -/
def scanAttributes (elements : Bool) : Nat → Cursor → List Node → Option (List Node × Cursor)
  | 0, _, _ => none
  | fuel + 1, cur, acc =>
    let cur := Lexeme.skipTrivia cur.rest.length cur
    match cur.rest with
    | [] => none
    | '/' :: '>' :: _ => some (acc.reverse, cur.skip 2)
    | c :: _ =>
      if c = '>' then scanChildren elements fuel (cur.skip 1) acc
      else if c = '\x7b' then
        match scanGroup elements fuel (.initial .operand) c cur with
        | some (nodes, stop) =>
          scanAttributes elements fuel stop (.mk .other none cur.offset stop.offset nodes :: acc)
        | none => none
      else
        let count := (cur.rest.takeWhile Lexeme.isNameChar).length
        if count = 0 then none
        else
          let cur := cur.skip count
          let next := Lexeme.skipTrivia cur.rest.length cur
          match next.rest with
          | '=' :: _ => scanAttributeValue elements fuel (next.skip 1) acc
          | _ => scanAttributes elements fuel cur acc

/-- Read the value of an attribute, and go on with the next attribute. -/
def scanAttributeValue (elements : Bool) : Nat → Cursor → List Node → Option (List Node × Cursor)
  | 0, _, _ => none
  | fuel + 1, cur, acc =>
    let cur := Lexeme.skipTrivia cur.rest.length cur
    match cur.rest with
    | [] => none
    | c :: rest =>
      if c = '\x22' ∨ c = '\x27' then
        match Lexeme.rawString? c rest with
        | some count => scanAttributes elements fuel (cur.skip (count + 1)) acc
        | none => none
      else if c = '\x7b' then
        match scanGroup elements fuel (.initial .operand) c cur with
        | some (nodes, stop) =>
          scanAttributes elements fuel stop (.mk .other none cur.offset stop.offset nodes :: acc)
        | none => none
      else if c = '<' then
        match scanElement elements fuel (cur.skip 1) with
        | some (nodes, stop) =>
          scanAttributes elements fuel stop (.mk .other none cur.offset stop.offset nodes :: acc)
        | none => none
      else none

/-- Read the children of an element and its closing tag. -/
def scanChildren (elements : Bool) : Nat → Cursor → List Node → Option (List Node × Cursor)
  | 0, _, _ => none
  | fuel + 1, cur, acc =>
    match cur.rest with
    | [] => none
    | c :: _ =>
      if c = '<' then
        let inner := Lexeme.skipTrivia cur.rest.length (cur.skip 1)
        match inner.rest with
        | '/' :: _ => (skipClosingTag inner).map fun stop => (acc.reverse, stop)
        | _ =>
          match scanElement elements fuel inner with
          | some (nodes, stop) =>
            scanChildren elements fuel stop (.mk .other none cur.offset stop.offset nodes :: acc)
          | none => none
      else if c = '\x7b' then
        match scanGroup elements fuel (.initial .operand) c cur with
        | some (nodes, stop) =>
          scanChildren elements fuel stop (.mk .other none cur.offset stop.offset nodes :: acc)
        | none => none
      else if c = '>' ∨ c = '\x7d' then none
      else scanChildren elements fuel (cur.skip 1) acc

end

/-- The cursor after a first line that names an interpreter. -/
def skipInterpreter (cur : Cursor) : Cursor :=
  match cur.rest with
  | '#' :: '!' :: rest => cur.skip (2 + Lexeme.line rest)
  | _ => cur

/-- The tree of a source, if its brackets, strings and comments are closed. -/
def parse? (elements : Bool) (source : List Char) : Option Node :=
  let cur := skipInterpreter ⟨0, source⟩
  match scan elements (2 * source.length + 2) (.initial .statement) cur [] with
  | some (pieces, stop) =>
    if stop.rest.isEmpty then
      some (.mk .program none 0 stop.offset (Piece.nodes (Piece.recognize pieces)))
    else none
  | none => none

end Source

end SliceLint
