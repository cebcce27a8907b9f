import SliceLint.Json

set_option autoImplicit false

/-! # Writing JSON

Two layouts: everything on one line, and one element or member a line with two spaces for each
level. Empty arrays and objects are written without a line break in both. -/

namespace SliceLint

namespace Json

/-- A string literal between its quotes. -/
def quoted (literal : List Char) : List Char :=
  '"' :: literal ++ ['"']

mutual

/-- A value on one line, without blanks. -/
def compact : Json → List Char
  | null => ['n', 'u', 'l', 'l']
  | bool true => ['t', 'r', 'u', 'e']
  | bool false => ['f', 'a', 'l', 's', 'e']
  | number literal => literal
  | string literal => quoted literal
  | array [] => ['[', ']']
  | array (v :: vs) => '[' :: compact v ++ compactElements vs
  | object [] => ['{', '}']
  | object ((key, v) :: ms) => '{' :: quoted key ++ ':' :: compact v ++ compactMembers ms

/-- The elements of an array after the first, and its closing bracket. -/
def compactElements : List Json → List Char
  | [] => [']']
  | v :: vs => ',' :: compact v ++ compactElements vs

/-- The members of an object after the first, and its closing brace. -/
def compactMembers : List (List Char × Json) → List Char
  | [] => ['}']
  | (key, v) :: ms => ',' :: quoted key ++ ':' :: compact v ++ compactMembers ms

end

/-- A line break and the blanks before a line of a given level. -/
def newline (level : Nat) : List Char :=
  '\n' :: List.replicate (2 * level) ' '

mutual

/-- A value over several lines, the lines after the first indented for `level`. -/
def pretty (level : Nat) : Json → List Char
  | null => ['n', 'u', 'l', 'l']
  | bool true => ['t', 'r', 'u', 'e']
  | bool false => ['f', 'a', 'l', 's', 'e']
  | number literal => literal
  | string literal => quoted literal
  | array [] => ['[', ']']
  | array (v :: vs) =>
    '[' :: newline (level + 1) ++ pretty (level + 1) v ++ prettyElements level vs
  | object [] => ['{', '}']
  | object ((key, v) :: ms) =>
    '{' :: newline (level + 1) ++ quoted key ++ ':' :: ' ' :: pretty (level + 1) v
      ++ prettyMembers level ms

/-- The elements of an array after the first, and its closing bracket. -/
def prettyElements (level : Nat) : List Json → List Char
  | [] => newline level ++ [']']
  | v :: vs => ',' :: newline (level + 1) ++ pretty (level + 1) v ++ prettyElements level vs

/-- The members of an object after the first, and its closing brace. -/
def prettyMembers (level : Nat) : List (List Char × Json) → List Char
  | [] => newline level ++ ['}']
  | (key, v) :: ms =>
    ',' :: newline (level + 1) ++ quoted key ++ ':' :: ' ' :: pretty (level + 1) v
      ++ prettyMembers level ms

end

/-- The text of a value on one line. -/
def toCompactText (v : Json) : String :=
  String.ofList v.compact

/-- The text of a value over several lines. -/
def toPrettyText (v : Json) : String :=
  String.ofList (v.pretty 0)

end Json

end SliceLint
