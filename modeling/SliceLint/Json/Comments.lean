import SliceLint.Text.Blank

set_option autoImplicit false

/-! # JSON with comments

Configuration documents may hold `//` and `/* */` comments, and a comma after the last element of
an array or object. Both are removed before the text is read as JSON. String literals are left as
they are, and so is every line feed. -/

namespace SliceLint

namespace Jsonc

/-- Where in the text a reader stands. -/
inductive Place where
  /-- Outside strings and comments. -/
  | code
  /-- Inside a string literal. -/
  | string
  /-- Inside a comment that ends with the line. -/
  | line
  /-- Inside a comment that ends with `*/`; the flag tells whether the last character was a star. -/
  | block (star : Bool)
  deriving DecidableEq, Repr

/-- Remove the comments, but keep their line feeds. A comment that is not closed reaches to the end
of the text. -/
def stripCommentsFrom : Place → List Char → List Char
  | _, [] => []
  | .code, '/' :: '/' :: cs => stripCommentsFrom .line cs
  | .code, '/' :: '*' :: cs => stripCommentsFrom (.block false) cs
  | .code, '"' :: cs => '"' :: stripCommentsFrom .string cs
  | .code, c :: cs => c :: stripCommentsFrom .code cs
  | .string, '\\' :: e :: cs => '\\' :: e :: stripCommentsFrom .string cs
  | .string, '"' :: cs => '"' :: stripCommentsFrom .code cs
  | .string, c :: cs => c :: stripCommentsFrom .string cs
  | .line, c :: cs =>
    if c = '\n' then '\n' :: stripCommentsFrom .code cs else stripCommentsFrom .line cs
  | .block star, c :: cs =>
    if star && c == '/' then stripCommentsFrom .code cs
    else if c = '\n' then '\n' :: stripCommentsFrom (.block false) cs
    else stripCommentsFrom (.block (c == '*')) cs

/-- Remove all comments of a text. -/
def stripComments (cs : List Char) : List Char :=
  stripCommentsFrom .code cs

/-- Whether the next character that is not blank closes an array or an object. -/
def closesNext (cs : List Char) : Bool :=
  match cs.dropWhile Text.isBlank with
  | c :: _ => c == '}' || c == ']'
  | [] => false

/-- Remove every comma in front of a closing bracket. The flag tells whether the text begins inside
a string literal. -/
def stripCommasFrom : Bool → List Char → List Char
  | _, [] => []
  | true, '\\' :: e :: cs => '\\' :: e :: stripCommasFrom true cs
  | true, '"' :: cs => '"' :: stripCommasFrom false cs
  | true, c :: cs => c :: stripCommasFrom true cs
  | false, '"' :: cs => '"' :: stripCommasFrom true cs
  | false, ',' :: cs =>
    if closesNext cs then stripCommasFrom false cs else ',' :: stripCommasFrom false cs
  | false, c :: cs => c :: stripCommasFrom false cs

/-- Remove all trailing commas of a text. -/
def stripCommas (cs : List Char) : List Char :=
  stripCommasFrom false cs

/-- The plain JSON text of a document with comments and trailing commas. -/
def strip (s : String) : String :=
  String.ofList (stripCommas (stripComments s.toList))

end Jsonc

end SliceLint
